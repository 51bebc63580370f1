/-
# The store and its log

`CacheyStore` with a WAL: `Put`, `Delete` and `TTL` hand a record to the log, wait for the answer
of the writer -- for a limited time -- and change the memory only after nil.  The caller's deadline
and the writer's append are decided independently: a mutation whose caller has given up is still
QUEUED or HELD, and is written LATER.

* A call keeps the store's lock while it waits, so at most the last mutation queued has a caller.
* The writer writes in the order of arrival (`WriterLoop.Orderly`), so when a caller is told nil
  everything queued before is settled.
* At one clock value a record either fixes the answer for its key or says nothing (`word`): what a
  stretch of the log says about a key is the LAST WORD in it.

A late record therefore does harm only if it has the last word on its key: nobody waits for it,
nothing queued behind it speaks about the same key, and the memory answers otherwise.  A record
that is refused does harm only if an earlier late one was left to it.  `Accounted` excludes both,
before each turn of the writer, and then memory and log answer alike whenever nothing is queued
(`memory_agrees`); a turn after which nothing is queued must meet it for that.
-/
import Cachey.Lib.Machine
import Cachey.Store.Replay
import Cachey.Wal.Codec
import Cachey.Wal.Control

namespace Cachey.Store

open Wal (Codec ControlID Record Reply WriteOutcome WriterLoop)

/-! ## 1. What a clock value lets one see -/

/-- What a record says about its key, whatever the key had before; a TTL record only when its time
is past. -/
def word (now : Int) (r : Record) : Option (Except StoreError String) :=
  match r.op with
  | .put => some (.ok r.val)
  | .delete => some (.error .invalidKey)
  | .ttl => if isExpired now ⟨"", r.exp⟩ then some (.error .invalidKey) else none
  | _ => none

/-- The last word of a stretch of the log on `k`. -/
def lastWord (now : Int) (k : String) : List Record → Option (Except StoreError String)
  | [] => none
  | r :: recs => (lastWord now k recs).or (if r.key = k then word now r else none)

section Words

variable {now : Int} {k : String} {r : Record} {recs recs' : List Record}

theorem lastWord_append : ∀ (recs recs' : List Record), lastWord now k (recs ++ recs') =
    (lastWord now k recs').or (lastWord now k recs)
  | [], recs' => by simp [lastWord]
  | r :: recs, recs' => by
    simp only [List.cons_append, lastWord, lastWord_append recs recs', Option.or_assoc]

theorem lastWord_append_eq_none : lastWord now k (recs ++ recs') = none ↔
    lastWord now k recs = none ∧ lastWord now k recs' = none := by
  rw [lastWord_append, Option.or_eq_none_iff, and_comm]

/-- A record of a stretch that says nothing about `k` says nothing about `k`. -/
theorem lastWord_of_mem : ∀ {recs : List Record}, lastWord now k recs = none → r ∈ recs →
    lastWord now k [r] = none
  | r' :: recs, h, hr => by
    rw [lastWord, Option.or_eq_none_iff] at h
    rcases List.mem_cons.mp hr with rfl | hr
    · rw [lastWord, h.2]
      rfl
    · exact lastWord_of_mem h.1 hr

theorem lastWord_singleton : lastWord now k [r] = if r.key = k then word now r else none := rfl

end Words

namespace CacheyStore

/-- The two stores answer alike at `now`. -/
def Alike (now : Int) (s t : CacheyStore) : Prop := ∀ key, s.answer now key = t.answer now key

variable {now : Int}

/-- **At one time, the answers are all that matters**: an entry that has expired is as good as
none, and a record that finds the key alive replaces its expiry. -/
theorem answerOf_keyStep (k : String) (r : Record) (e : Option Entry) :
    answerOf now (keyStep k now r e) =
      (if r.key = k then word now r else none).getD (answerOf now e) := by
  by_cases hk : r.key = k
  · cases hop : r.op with
    | put => simp [keyStep, word, hk, hop, answerOf, isExpired]
    | delete => simp [keyStep, word, hk, hop, answerOf]
    | ttl =>
      by_cases hpast : isExpired now ⟨"", r.exp⟩ = true
      · have hends : ∀ v, isExpired now ⟨v, r.exp⟩ = true := fun v => hpast
        cases e with
        | none => simp [keyStep, word, hk, hop, answerOf, hpast]
        | some x => cases hx : isExpired now x <;> simp [keyStep, word, hk, hop, answerOf, hx, hends]
      · have hlasts : ∀ v, isExpired now ⟨v, r.exp⟩ = false := fun v => Bool.not_eq_true _ ▸ hpast
        cases e with
        | none => simp [keyStep, word, hk, hop, answerOf, hlasts]
        | some x => cases hx : isExpired now x <;> simp [keyStep, word, hk, hop, answerOf, hx, hlasts]
    | noop | config | hotStuff | membership | other _ => simp [keyStep, word, hk, hop]
  · simp [keyStep, hk]

theorem answer_applyRecord (k : String) (r : Record) (s : CacheyStore) :
    (s.applyRecord now r).1.answer now k = (lastWord now k [r]).getD (s.answer now k) := by
  rw [answer_eq, lookup_applyRecord, answerOf_keyStep, answer_eq, lastWord_singleton]

/-- **The answer after a replay** is the last word of the log, if there is one. -/
theorem answer_replayAt (k : String) : ∀ (recs : List Record) (s : CacheyStore),
    (s.replayAt now recs).answer now k = (lastWord now k recs).getD (s.answer now k)
  | [], _ => rfl
  | r :: recs, s => by
    change ((s.applyRecord now r).1.replayAt now recs).answer now k = _
    rw [answer_replayAt k recs, answer_applyRecord]
    simp only [lastWord]
    cases lastWord now k recs <;> rfl

end CacheyStore

/-! ## 2. Calls, the queue and the writer

A call and the writer meet in a channel.  `Append` returns when the writer answers or when the
caller's deadline passes, whichever comes first; the source then reports an error and forgets the
mutation, but does not take it back. -/

/-- A call that changes the store. -/
inductive Call where
  | put (key value : String)
  | delete (key : String)
  | ttl (key : String) (ttlMillis : Int)
deriving DecidableEq

/-- The call with a given outcome of its `Append`. -/
def Call.run (w : WriteOutcome) (now : Int) (s : CacheyStore) :
    Call → Option Record × CacheyStore × Except StoreError Unit
  | .put key value => s.put w key value
  | .delete key => s.delete w now key
  | .ttl key ttlMillis => s.ttl w now key ttlMillis

/-- A store, the writer of its log, and what is between them. -/
structure Logged where
  store : CacheyStore
  writer : WriterLoop
  /-- sent to the writer, not received yet; oldest first -/
  channel : List Record
  /-- the call that holds the lock and waits for the answer to the last record queued -/
  caller : Option Call
  /-- the records in the log, oldest first -/
  log : List Record
deriving DecidableEq

/-- What happens to a store with a log. -/
inductive LogEvent where
  /-- a call; `sent` tells whether its mutation got into the channel before the deadline -/
  | call (c : Call) (sent : Bool)
  /-- the deadline of the caller -/
  | timeout
  /-- the writer takes the next mutation -/
  | receive
  | startSealing (opens : Bool) (id : ControlID)
  | finishRotation (id : ControlID)
  | rotationComplete (opens : Bool) (id : ControlID)

/-- What one turn of the writer does. -/
structure Turn where
  writer : WriterLoop
  channel : List Record
  written : List Record
  /-- the answer to the last record queued -/
  reply : Option Reply

def Turn.queue (t : Turn) : List Record := t.writer.running.writer.hold ++ t.channel

namespace Logged

def queue (s : Logged) : List Record := s.writer.running.writer.hold ++ s.channel

/-- A turn in which nothing happens to a mutation. -/
def quiet (s : Logged) (w : WriterLoop) : Turn :=
  { writer := w, channel := s.channel, written := [], reply := none }

/-- The turn of the writer an event is.  File operations succeed. -/
def turn (C : Codec) (s : Logged) : LogEvent → Turn
  | .receive =>
    match s.channel with
    | [] => s.quiet s.writer
    | rec :: rest =>
      let (w, reply) := s.writer.handleMutation C .succeeds rec
      { writer := w, channel := rest, written := if reply = some .ok then [rec] else [],
        reply := if rest = [] then reply else none }
  | .startSealing opens id => s.quiet (s.writer.handleStartSealing opens id).1
  | .finishRotation id => s.quiet (s.writer.handleFinishRotation id).1
  | .rotationComplete opens id =>
    let (w, replies, _) := s.writer.handleRotationComplete C opens (fun _ => .succeeds) id
    { writer := w, channel := s.channel,
      written := ((s.writer.running.writer.hold.zip replies).filter fun x => x.2 = .ok).map (·.1),
      reply := if s.channel = [] then replies.getLast? else none }
  | .call _ _ | .timeout => s.quiet s.writer

/-- The memory after a turn: a caller that is told nil goes on. -/
def memory (now : Int) (t : Turn) (s : Logged) : CacheyStore :=
  match s.caller, t.reply with
  | some c, some .ok => (c.run .ok now s.store).2.1
  | some c, some _ => (c.run .lost now s.store).2.1
  | _, _ => s.store

def settle (now : Int) (t : Turn) (s : Logged) : Logged where
  store := s.memory now t
  writer := t.writer
  channel := t.channel
  caller := if t.reply = none then s.caller else none
  log := s.log ++ t.written

def act (C : Codec) (now : Int) (s : Logged) : LogEvent → Logged
  | .call c sent =>
    match (c.run .ok now s.store).1 with
    | none => s
    | some rec => if sent then { s with channel := s.channel ++ [rec], caller := some c } else s
  | .timeout =>
    match s.caller with
    | none => s
    | some c => { s with store := (c.run .late now s.store).2.1, caller := none }
  | e => s.settle now (s.turn C e)

/-- A call needs the lock; only a waiting caller has a deadline. -/
def Enabled (s : Logged) : LogEvent → Prop
  | .call _ _ => s.caller = none
  | .timeout => s.caller.isSome
  | .receive => s.channel ≠ []
  | _ => True

instance (s : Logged) (e : LogEvent) : Decidable (s.Enabled e) := by
  unfold Enabled
  split <;> infer_instance

/-- A store and its log at one clock value as a machine. -/
def machine (C : Codec) (now : Int) : Machine Logged LogEvent where
  enabled := fun s e => s.Enabled e
  act := fun s e => s.act C now e

/-- A store recovered from `log`, and the writer that was opened behind it. -/
def start (now : Int) (log : List Record) (w : WriterLoop) : Logged where
  store := newCacheyStore.replayAt now log
  writer := w
  channel := []
  caller := none
  log := log

/-- When nothing is queued or held, memory and log answer alike, and no key that a `Delete` would
report absent comes back from the log. -/
def Agrees (now : Int) (s : Logged) : Prop :=
  s.queue = [] →
    CacheyStore.Alike now s.store (newCacheyStore.replayAt now s.log) ∧
      ∀ key, ((Call.delete key).run .ok now s.store).2.2 = .error .invalidKey →
        (newCacheyStore.replayAt now s.log).answer now key = .error .invalidKey

/-- The records the writer appends in its turn. -/
def writes (s : Logged) : LogEvent → List Record
  | .receive => if s.writer.appends then s.channel.head?.toList else []
  | .rotationComplete opens id =>
    if s.writer.resumes opens id then s.writer.running.writer.hold else []
  | _ => []

/-- The record the writer refuses in its turn. -/
def refuses (s : Logged) : LogEvent → List Record
  | .receive => if ¬ s.writer.appends ∧ s.writer.full then s.channel.head?.toList else []
  | _ => []

/-- Of the records that are written, `rest` queued behind them: one that has the last word on its key
is waited for, or says what the memory answers. -/
def Covered (now : Int) (m : CacheyStore) (waited : Bool) (rest : List Record) :
    List Record → Prop
  | [] => True
  | r :: due =>
    ((word now r).isSome → lastWord now r.key (due ++ rest) = none →
      (waited = true ∧ due ++ rest = []) ∨ word now r = some (m.answer now r.key)) ∧
    Covered now m waited rest due

instance decidableCovered (now : Int) (m : CacheyStore) (waited : Bool) (rest : List Record) :
    ∀ due, Decidable (Covered now m waited rest due)
  | [] => inferInstanceAs (Decidable True)
  | r :: due =>
    have := decidableCovered now m waited rest due
    inferInstanceAs (Decidable (((word now r).isSome → lastWord now r.key (due ++ rest) = none →
      (waited = true ∧ due ++ rest = []) ∨ word now r = some (m.answer now r.key)) ∧
      Covered now m waited rest due))

/-- **The condition**, on the state before a turn of the writer: no late record has the last word
against the memory, and on the key of a record that is refused, if nothing else queued speaks about
it, memory and log answer alike. -/
def Accounted (now : Int) (s : Logged) (e : LogEvent) : Prop :=
  Covered now s.store s.caller.isSome (s.queue.drop (s.writes e).length) (s.writes e) ∧
  ∀ r ∈ s.refuses e, (word now r).isSome →
    lastWord now r.key (s.writer.running.writer.hold ++ s.channel.tail) = none →
    s.store.answer now r.key = (newCacheyStore.replayAt now s.log).answer now r.key

instance (now : Int) (s : Logged) (e : LogEvent) : Decidable (s.Accounted now e) :=
  inferInstanceAs (Decidable (_ ∧ _))

end Logged

/-! ## 3. One turn of the writer

The writer of `Wal.Control` knows files, states and answers.  `Fair` is all the store has to know of
a turn: which records were written, which one was refused, and that a caller is told nil exactly
when its record, the last one queued, is in the log. -/

theorem Call.run_ok {now : Int} {s : CacheyStore} {c : Call} {rec : Record}
    (h : (c.run .ok now s).1 = some rec) : (c.run .ok now s).2.1 = (s.applyRecord now rec).1 := by
  cases c with
  | put key value =>
    obtain rfl := Option.some.inj h
    rfl
  | delete key =>
    unfold Call.run CacheyStore.delete at h ⊢
    cases hk : s.data.lookup key with
    | none => simp [hk] at h
    | some e =>
      simp only [hk] at h ⊢
      obtain rfl := Option.some.inj h
      rfl
  | ttl key ttlMillis =>
    unfold Call.run CacheyStore.ttl at h ⊢
    cases hk : s.data.lookup key with
    | none => simp [hk] at h
    | some e =>
      simp only [hk] at h ⊢
      obtain rfl := Option.some.inj h
      rfl

theorem Call.run_error {w : WriteOutcome} (hw : w ≠ .ok) (now : Int) (s : CacheyStore) (c : Call) :
    (c.run w now s).2.1 = s := by
  cases c with
  | put key value => simp [Call.run, CacheyStore.put, hw]
  | delete key =>
    unfold Call.run CacheyStore.delete
    cases hk : s.data.lookup key <;> simp [hk, hw]
  | ttl key ttlMillis =>
    unfold Call.run CacheyStore.ttl
    cases hk : s.data.lookup key <;> simp [hk, hw]

namespace Logged

/-- What a turn can do, as the store sees it: the oldest records queued are written, or one is
refused, and the others keep their order. -/
structure Fair (s : Logged) (e : LogEvent) (t : Turn) : Prop where
  orderly : t.writer.Orderly
  written : t.written = s.writes e
  left : (s.refuses e = [] ∧ s.queue = s.writes e ++ t.queue) ∨
    ∃ r, s.refuses e = [r] ∧ s.writes e = [] ∧
      s.queue = s.writer.running.writer.hold ++ r :: s.channel.tail ∧
      t.queue = s.writer.running.writer.hold ++ s.channel.tail
  /-- nil is the answer when everything queued is written -/
  told : t.reply = some .ok ↔ s.writes e ≠ [] ∧ t.queue = []
  /-- no answer: the last record queued is still the last one -/
  waiting : t.reply = none → t.queue.getLast? = s.queue.getLast?

variable {C : Codec} {now : Int} {s : Logged} {w : WriterLoop} {t : Turn} {e : LogEvent}

theorem Fair.quiet (hw : w.Orderly) (hold : w.running.writer.hold = s.writer.running.writer.hold)
    (hwrites : s.writes e = []) (hrefuses : s.refuses e = []) : s.Fair e (s.quiet w) := by
  have hq : (s.quiet w).queue = s.queue := by
    unfold Turn.queue queue Logged.quiet
    rw [hold]
  refine ⟨hw, hwrites.symm, Or.inl ⟨hrefuses, by rw [hwrites, hq]; rfl⟩, ?_, fun _ => by rw [hq]⟩
  exact ⟨fun h => (by cases h), fun h => absurd hwrites h.1⟩

theorem Fair.receive (h : s.writer.Orderly) : s.Fair .receive (s.turn C .receive) := by
  unfold turn
  cases hch : s.channel with
  | nil => exact Fair.quiet h rfl (by simp [writes, hch]) (by simp [refuses, hch])
  | cons rec rest =>
    have hq : s.queue = s.writer.running.writer.hold ++ rec :: rest := by rw [queue, hch]
    have hord := h.handleMutation C .succeeds rec
    have hcases := WriterLoop.handleMutation_cases h C rec
    dsimp only at hcases ⊢
    generalize s.writer.handleMutation C .succeeds rec = next at hord hcases
    obtain ⟨w, reply⟩ := next
    rcases hcases with ⟨happ, rfl, hnone, hnone'⟩ | ⟨happ, hfull, rfl, hsame⟩ |
      ⟨happ, hroom, rfl, hheld⟩
    · -- written at once: nothing was held
      have hwrites : s.writes .receive = [rec] := by simp [writes, happ, hch]
      have hqueue : ∀ t : Turn, t.writer = w → t.channel = rest → t.queue = rest := by
        rintro t rfl rfl
        rw [Turn.queue, hnone', List.nil_append]
      refine ⟨hord, hwrites.symm, Or.inl ⟨by simp [refuses, happ], ?_⟩, ?_, fun hr => ?_⟩
      · rw [hwrites, hqueue _ rfl rfl, hq, hnone]
        rfl
      · rw [hqueue _ rfl rfl, hwrites]
        split <;> simp_all
      · rw [hqueue _ rfl rfl, hq, hnone]
        dsimp only at hr
        split at hr
        · cases hr
        next hne => exact (List.getLast?_cons_of_ne_nil hne).symm
    · -- refused
      have hwrites : s.writes .receive = [] := by simp [writes, happ]
      refine ⟨hord, hwrites.symm, Or.inr ⟨rec, by simp [refuses, happ, hfull, hch], hwrites, ?_, ?_⟩,
        ?_, fun hr => ?_⟩
      · rw [hq, hch]
        rfl
      · rw [Turn.queue, hsame, hch]
        rfl
      · rw [hwrites]
        split <;> simp
      · dsimp only at hr
        split at hr
        · cases hr
        next hne =>
          rw [hq, Turn.queue, hsame, List.getLast?_append_of_ne_nil _ hne,
            List.getLast?_append_of_ne_nil _ (List.cons_ne_nil _ _),
            List.getLast?_cons_of_ne_nil hne]
    · -- held
      have hwrites : s.writes .receive = [] := by simp [writes, happ]
      have hqueue : s.queue = w.running.writer.hold ++ rest := by
        rw [hq, hheld, List.append_assoc]
        rfl
      refine ⟨hord, hwrites.symm, Or.inl ⟨by simp [refuses, hroom], by rw [hwrites, hqueue]; rfl⟩,
        ?_, fun _ => by rw [hqueue]; rfl⟩
      rw [hwrites]
      split <;> simp

theorem written_of_all_ok (held : List Record) :
    ((held.zip (held.map fun _ => Reply.ok)).filter fun x => x.2 = .ok).map (·.1) = held := by
  induction held with
  | nil => rfl
  | cons rec held ih => simpa using ih

theorem Fair.rotationComplete (h : s.writer.Orderly) (opens : Bool) (id : ControlID) :
    s.Fair (.rotationComplete opens id) (s.turn C (.rotationComplete opens id)) := by
  have hord := h.handleRotationComplete C opens (fun _ => .succeeds) id
  have hcases := WriterLoop.handleRotationComplete_cases s.writer C opens id
  unfold turn
  dsimp only at hcases ⊢
  generalize s.writer.handleRotationComplete C opens (fun _ => .succeeds) id = next at hord hcases
  obtain ⟨w, replies, ack⟩ := next
  rcases hcases with ⟨hres, rfl, rfl⟩ | ⟨hres, rfl, hnone⟩
  · -- nothing happens
    have hquiet := Fair.quiet (s := s) (e := .rotationComplete opens id) h rfl (by simp [writes, hres])
      rfl
    simpa [Logged.quiet] using hquiet
  · -- everything held is written, oldest first
    have hwrites : s.writes (.rotationComplete opens id) = s.writer.running.writer.hold := by
      simp [writes, hres]
    have hqueue : ∀ t : Turn, t.writer = w → t.channel = s.channel → t.queue = s.channel := by
      rintro t rfl ht
      rw [Turn.queue, hnone, List.nil_append, ht]
    refine ⟨hord, ?_, Or.inl ⟨rfl, ?_⟩, ?_, fun hr => ?_⟩
    · rw [hwrites]
      exact written_of_all_ok _
    · rw [hwrites, hqueue _ rfl rfl]
      rfl
    · rw [hwrites, hqueue _ rfl rfl]
      by_cases hch : s.channel = []
      · rw [if_pos hch, List.getLast?_map]
        cases hl : s.writer.running.writer.hold.getLast? with
        | none => simp [List.getLast?_eq_none_iff.mp hl]
        | some r =>
          have hne : s.writer.running.writer.hold ≠ [] := fun hnil => by simp [hnil] at hl
          simp [hne, hch]
      · simp [hch]
    · rw [hqueue _ rfl rfl, queue]
      by_cases hch : s.channel = []
      · rw [if_pos hch, List.getLast?_map, Option.map_eq_none_iff, List.getLast?_eq_none_iff] at hr
        rw [hr, List.nil_append]
      · rw [List.getLast?_append_of_ne_nil _ hch]

theorem Fair.turn (h : s.writer.Orderly) (e : LogEvent) : s.Fair e (s.turn C e) := by
  cases e with
  | receive => exact Fair.receive h
  | startSealing opens id =>
    exact Fair.quiet (h.handleStartSealing opens id)
      (WriterLoop.handleStartSealing_hold s.writer opens id) rfl rfl
  | finishRotation id =>
    exact Fair.quiet (h.handleFinishRotation id)
      (WriterLoop.handleFinishRotation_hold s.writer id) rfl rfl
  | rotationComplete opens id => exact Fair.rotationComplete h opens id
  | call c sent => exact Fair.quiet h rfl rfl rfl
  | timeout => exact Fair.quiet h rfl rfl rfl

/-! ## 4. Every run

Memory and log may differ on a key about which something queued has yet to speak, and on no other:
that is the invariant.  The condition is what keeps it when a record leaves the queue, written or
refused; at a turn that empties the queue it is also necessary. -/

/-- The record of `due` whose caller is told nil. -/
def acknowledged (waited : Bool) (rest due : List Record) : List Record :=
  if waited = true ∧ rest = [] then due.getLast?.toList else []

theorem acknowledged_cons {waited : Bool} {rest due : List Record} {r : Record} (h : due ≠ []) :
    acknowledged waited rest (r :: due) = acknowledged waited rest due := by
  unfold acknowledged
  rw [List.getLast?_cons_of_ne_nil h]

/-- What says nothing about a key does not change its answer when it is acknowledged. -/
theorem lastWord_acknowledged {waited : Bool} {rest due : List Record} {k : String}
    (h : lastWord now k due = none) : lastWord now k (acknowledged waited rest due) = none := by
  unfold acknowledged
  split
  · cases hl : due.getLast? with
    | none => rfl
    | some r => exact lastWord_of_mem h (List.mem_of_getLast? hl)
  · rfl

section Covering

variable {m : CacheyStore} {waited : Bool} {rest : List Record} {k : String}

/-- **Covered records**: where they have the last word, the memory says it too. -/
theorem Covered.answer : ∀ {due : List Record} {a : Except StoreError String}, Covered now m waited rest due →
    lastWord now k rest = none → lastWord now k due = some a →
    (lastWord now k (acknowledged waited rest due)).getD (m.answer now k) = a
  | r :: due, a, hcov, hrest, hword => by
    cases hdue : lastWord now k due with
    | some b =>
      have hne : due ≠ [] := by rintro rfl; cases hdue
      rw [lastWord, hdue] at hword
      rw [acknowledged_cons hne]
      exact (Covered.answer hcov.2 hrest hdue).trans (Option.some.inj hword)
    | none =>
      -- the head has the last word
      rw [lastWord, hdue, Option.none_or] at hword
      have hkey : r.key = k := by
        by_contra hne
        rw [if_neg hne] at hword
        cases hword
      rw [if_pos hkey] at hword
      rcases hcov.1 (by rw [hword]; rfl)
        (by rw [hkey, lastWord_append_eq_none]; exact ⟨hdue, hrest⟩) with ⟨hwait, hnil⟩ | hsame
      · obtain ⟨rfl, rfl⟩ := List.append_eq_nil_iff.mp hnil
        simp [acknowledged, hwait, lastWord_singleton, hkey, hword]
      · rw [hword, hkey] at hsame
        by_cases hne : due = []
        · subst hne
          unfold acknowledged
          split
          · simp [lastWord_singleton, hkey, hword]
          · exact (Option.some.inj hsame).symm
        · rw [acknowledged_cons hne, lastWord_acknowledged hdue]
          exact (Option.some.inj hsame).symm

/-- Records behind which nothing is queued are covered if the memory says what they say. -/
theorem Covered.of_answer : ∀ {due : List Record}, (∀ k a, lastWord now k due = some a →
      (lastWord now k (acknowledged waited [] due)).getD (m.answer now k) = a) →
    Covered now m waited [] due
  | [], _ => trivial
  | r :: due, h => by
    refine ⟨fun hsome hlast => ?_, Covered.of_answer fun k a hword => ?_⟩
    · rw [List.append_nil] at hlast ⊢
      obtain ⟨a, ha⟩ := Option.isSome_iff_exists.mp hsome
      have hans := h r.key a (by rw [lastWord, hlast, Option.none_or, if_pos rfl, ha])
      by_cases hne : due = []
      · subst hne
        by_cases hwait : waited = true
        · exact Or.inl ⟨hwait, rfl⟩
        · right
          rw [acknowledged, if_neg fun hw => hwait hw.1] at hans
          rw [ha, ← hans]
          rfl
      · right
        rw [acknowledged_cons hne, lastWord_acknowledged hlast] at hans
        rw [ha, ← hans]
        rfl
    · have hne : due ≠ [] := by rintro rfl; cases hword
      rw [← acknowledged_cons (r := r) hne]
      exact h k a (by rw [lastWord, hword]; rfl)

end Covering

/-- Where memory and log answer differently, something that is queued has yet to speak. -/
structure Invariant (now : Int) (s : Logged) : Prop where
  orderly : s.writer.Orderly
  /-- the last record queued is the waiting caller's -/
  caller : ∀ c, s.caller = some c →
    ∃ rec, (c.run .ok now s.store).1 = some rec ∧ s.queue.getLast? = some rec
  view : ∀ k, lastWord now k s.queue = none →
    s.store.answer now k = (newCacheyStore.replayAt now s.log).answer now k

theorem Invariant.start (hw : w.Orderly) (log : List Record) :
    (Logged.start now log w).Invariant now where
  orderly := hw
  caller := fun c hc => by cases hc
  view := fun _ _ => rfl

theorem Invariant.agrees (h : s.Invariant now) : s.Agrees now := by
  intro hq
  have hview : CacheyStore.Alike now s.store (newCacheyStore.replayAt now s.log) :=
    fun key => h.view key (by rw [hq]; rfl)
  refine ⟨hview, fun key habsent => (hview key).symm.trans ?_⟩
  -- what a Delete reports absent has no entry, or one that has expired
  unfold Call.run CacheyStore.delete at habsent
  rw [CacheyStore.answer_eq]
  cases hk : s.store.data.lookup key with
  | none => rfl
  | some e =>
    by_cases he : isExpired now e = true
    · simp [answerOf, he]
    · simp [hk, CacheyStore.deleteLocked, he] at habsent

theorem Invariant.memory_eq (h : s.Invariant now) (ht : s.Fair e t) :
    s.memory now t =
      s.store.replayAt now (acknowledged s.caller.isSome t.queue (s.writes e)) := by
  have hnot : t.reply ≠ some .ok →
      acknowledged s.caller.isSome t.queue (s.writes e) = [] := by
    intro hr
    unfold acknowledged
    split
    next hok =>
      have hnil : s.writes e = [] := by
        by_contra hne
        exact hr (ht.told.mpr ⟨hne, hok.2⟩)
      rw [hnil]
      rfl
    · rfl
  unfold memory
  cases hc : s.caller with
  | none => rfl
  | some c =>
    rw [hc] at hnot
    cases hr : t.reply with
    | none =>
      rw [hnot (by rw [hr]; exact fun h => by cases h)]
      rfl
    | some r =>
      cases r with
      | ok =>
        obtain ⟨rec, hrun, hlast⟩ := h.caller c hc
        obtain ⟨hne, hnil⟩ := ht.told.mp hr
        have hqueue : s.queue = s.writes e := by
          rcases ht.left with ⟨-, hq⟩ | ⟨_, -, hnone, -⟩
          · rw [hq, hnil, List.append_nil]
          · exact absurd hnone hne
        rw [acknowledged, if_pos ⟨rfl, hnil⟩, ← hqueue, hlast]
        exact Call.run_ok hrun
      | busy =>
        rw [hnot (by rw [hr]; exact fun h => by cases h)]
        exact Call.run_error (by decide) now s.store c
      | failed =>
        rw [hnot (by rw [hr]; exact fun h => by cases h)]
        exact Call.run_error (by decide) now s.store c

theorem Invariant.answers (h : s.Invariant now) (ht : s.Fair e t) (k : String) :
    (s.settle now t).store.answer now k =
      (lastWord now k (acknowledged s.caller.isSome t.queue (s.writes e))).getD
        (s.store.answer now k) ∧
    (newCacheyStore.replayAt now (s.settle now t).log).answer now k =
      (lastWord now k (s.writes e)).getD ((newCacheyStore.replayAt now s.log).answer now k) := by
  constructor
  · change (s.memory now t).answer now k = _
    rw [h.memory_eq ht, CacheyStore.answer_replayAt]
  · change (newCacheyStore.replayAt now (s.log ++ t.written)).answer now k = _
    rw [CacheyStore.replayAt_append, CacheyStore.answer_replayAt, ht.written]

theorem Invariant.settle (h : s.Invariant now) (ht : s.Fair e t) (hacc : s.Accounted now e) :
    (s.settle now t).Invariant now where
  orderly := ht.orderly
  caller := by
    intro c hc
    change (if t.reply = none then s.caller else none) = some c at hc
    split at hc
    next hr =>
      obtain ⟨rec, hrun, hlast⟩ := h.caller c hc
      refine ⟨rec, ?_, (ht.waiting hr).trans hlast⟩
      change (c.run .ok now (s.memory now t)).1 = some rec
      unfold memory
      rw [hr]
      cases s.caller <;> exact hrun
    · cases hc
  view := by
    intro k hk
    change lastWord now k t.queue = none at hk
    obtain ⟨hmem, hlog⟩ := h.answers ht k
    rw [hmem, hlog]
    rcases ht.left with ⟨-, hq⟩ | ⟨r, href, hnone, hq, hq'⟩
    · have hcov := hacc.1
      rw [hq, List.drop_left] at hcov
      cases hword : lastWord now k (s.writes e) with
      | some a => exact hcov.answer hk hword
      | none =>
        rw [lastWord_acknowledged hword]
        exact h.view k (by rw [hq, lastWord_append_eq_none]; exact ⟨hword, hk⟩)
    · -- a record is refused: what it would have said is not left open
      rw [hnone, lastWord_acknowledged rfl]
      rw [hq', lastWord_append_eq_none] at hk
      cases hword : lastWord now k [r] with
      | none =>
        refine h.view k ?_
        rw [hq, lastWord_append_eq_none, ← List.singleton_append, lastWord_append_eq_none]
        exact ⟨hk.1, hword, hk.2⟩
      | some a =>
        have hkey : r.key = k := by
          by_contra hne
          rw [lastWord_singleton, if_neg hne] at hword
          cases hword
        rw [lastWord_singleton, if_pos hkey] at hword
        have hsame := hacc.2 r (by rw [href]; exact List.mem_singleton_self r) (by rw [hword]; rfl)
          (by rw [hkey, lastWord_append_eq_none]; exact hk)
        rwa [hkey] at hsame

theorem Invariant.act (h : s.Invariant now) (hacc : s.Accounted now e) :
    (s.act C now e).Invariant now := by
  have hturn : (s.settle now (s.turn C e)).Invariant now :=
    h.settle (Fair.turn h.orderly e) hacc
  cases e with
  | call c sent =>
    unfold Logged.act
    dsimp only
    split
    · exact h
    next rec hrec =>
      split
      · have hqueue : s.writer.running.writer.hold ++ (s.channel ++ [rec]) = s.queue ++ [rec] :=
          (List.append_assoc _ _ _).symm
        refine ⟨h.orderly, fun c' hc' => ?_, fun k hk => ?_⟩
        · obtain rfl := Option.some.inj hc'
          exact ⟨rec, hrec, by rw [queue, hqueue, List.getLast?_concat]⟩
        · rw [queue, hqueue, lastWord_append_eq_none] at hk
          exact h.view k hk.1
      · exact h
  | timeout =>
    unfold Logged.act
    cases hc : s.caller with
    | none => exact h
    | some c =>
      dsimp only
      rw [Call.run_error (by decide)]
      exact ⟨h.orderly, fun c' hc' => (by cases hc'), h.view⟩
  | receive => exact hturn
  | startSealing opens id => exact hturn
  | finishRotation id => exact hturn
  | rotationComplete opens id => exact hturn

/-- A turn after which nothing is queued, and memory and log agree, meets the condition. -/
theorem Invariant.accounted_settle (h : s.Invariant now) (ht : s.Fair e t)
    (hq : (s.settle now t).queue = []) (hagree : (s.settle now t).Agrees now) :
    s.Accounted now e := by
  have hnil : t.queue = [] := hq
  have hsame : ∀ k, (lastWord now k (acknowledged s.caller.isSome t.queue (s.writes e))).getD
      (s.store.answer now k) =
      (lastWord now k (s.writes e)).getD ((newCacheyStore.replayAt now s.log).answer now k) := by
    intro k
    obtain ⟨hmem, hlog⟩ := h.answers ht k
    rw [← hmem, ← hlog]
    exact (hagree hq).1 k
  rw [hnil] at hsame
  rcases ht.left with ⟨href, hqueue⟩ | ⟨r, href, hnone, hqueue, -⟩
  · refine ⟨?_, fun r hr => by rw [href] at hr; cases hr⟩
    rw [hqueue, List.drop_left, hnil]
    refine Covered.of_answer fun k a hword => ?_
    rw [hsame k, hword]
    rfl
  · refine ⟨by rw [hnone]; trivial, fun r' _ _ _ => ?_⟩
    have hk := hsame r'.key
    rw [hnone, lastWord_acknowledged rfl] at hk
    exact hk

theorem Invariant.accounted (h : s.Invariant now) (hq : (s.act C now e).queue = [])
    (hagree : (s.act C now e).Agrees now) : s.Accounted now e := by
  have hturn := h.accounted_settle (Fair.turn (C := C) h.orderly e)
  cases e with
  | call c sent => exact ⟨trivial, fun _ hr => by cases hr⟩
  | timeout => exact ⟨trivial, fun _ hr => by cases hr⟩
  | receive => exact hturn hq hagree
  | startSealing opens id => exact hturn hq hagree
  | finishRotation id => exact hturn hq hagree
  | rotationComplete opens id => exact hturn hq hagree

/-- **Memory and log agree as long as no late record has the last word.**  In every run whose turns
meet the condition, every state agrees; and a turn after which nothing is queued leads to a state
that agrees only if it meets the condition. -/
theorem memory_agrees {C : Codec} {now : Int} {log : List Record} {tmpLimit holdLimit last : ℕ}
    {d : Wal.Dir} {s : Logged}
    (hrun : ((machine C now).restrict (Accounted now)).Steps
      (start now log (WriterLoop.start tmpLimit holdLimit last d)) s) :
    s.Agrees now ∧ ∀ e, (s.act C now e).queue = [] →
      ((s.act C now e).Agrees now ↔ s.Accounted now e) := by
  have hinv : s.Invariant now := by
    refine hrun.invariant (P := Invariant now)
      (fun s e h (hen : s.Enabled e ∧ s.Accounted now e) => h.act hen.2) ?_
    exact Invariant.start (WriterLoop.Orderly.start _ _ _ _) log
  exact ⟨hinv.agrees, fun e hq => ⟨hinv.accounted hq, fun hacc => (hinv.act hacc).agrees⟩⟩

/-! ## 5. A late record that is overwritten, and one that is not -/

instance (C : Codec) (now : Int) (s : Logged) (e : LogEvent) :
    Decidable ((machine C now).enabled s e) :=
  inferInstanceAs (Decidable (s.Enabled e))

instance (C : Codec) (now : Int) (s : Logged) (e : LogEvent) :
    Decidable (((machine C now).restrict (Accounted now)).enabled s e) :=
  inferInstanceAs (Decidable (s.Enabled e ∧ s.Accounted now e))

/-- Records as `recordCode` writes them. -/
def recordCodec : Codec where
  encode := Wal.recordCode.enc
  decode := Wal.recordCode.parse
  decodeSnapshot := fun _ => none

/-- The store and its log before the first call. -/
def fresh : Logged := start 5 [] (WriterLoop.start 8 8 0 {})

/-- Two callers give up, one before the writer gets to its mutation and one during a rotation; each
time the next call writes the same key and waits. -/
def overwritten : List (Logged → LogEvent) :=
  [fun _ => .call (.put "k" "t") true, fun _ => .timeout, fun _ => .call (.put "k" "u") true,
   fun _ => .receive, fun _ => .receive, fun _ => .startSealing true 1, fun _ => .finishRotation 2,
   fun _ => .call (.put "k" "v") true, fun _ => .receive, fun _ => .timeout,
   fun _ => .call (.put "k" "w") true, fun _ => .receive, fun _ => .rotationComplete true 3]

/-- The caller gives up before the writer gets to its mutation. -/
def lateWrite : List (Logged → LogEvent) :=
  [fun _ => .call (.put "k" "v") true, fun _ => .timeout, fun _ => .receive]

theorem memory_agrees_overwritten :
    let s := ((machine recordCodec 5).restrict (Accounted 5)).play fresh overwritten
    s.log.map (·.val) = ["t", "u", "v", "w"] ∧ s.queue = [] ∧ s.Agrees 5 :=
  ⟨by decide +kernel, by decide +kernel,
    (memory_agrees (Machine.steps_of_plays overwritten fresh (by decide +kernel))).1⟩

/-- **A failed write comes back.**  The `Put` reports an error and the memory does not have the
key -- a `Delete` reports it absent -- but the log does. -/
theorem memory_agrees_fails :
    let s := (machine recordCodec 5).play fresh lateWrite
    (machine recordCodec 5).Steps fresh s ∧ s.queue = [] ∧
      ((Call.delete "k").run .ok 5 s.store).2.2 = .error .invalidKey ∧
      s.store.answer 5 "k" = .error .invalidKey ∧
      (newCacheyStore.replayAt 5 s.log).answer 5 "k" = .ok "v" ∧ ¬ s.Agrees 5 := by
  refine ⟨Machine.steps_of_plays _ _ (by decide +kernel), by decide +kernel, by decide +kernel,
    by decide +kernel, by decide +kernel, fun h => ?_⟩
  exact absurd ((h (by decide +kernel)).1 "k") (by decide +kernel)

end Logged

end Cachey.Store
