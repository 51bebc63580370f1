/-
# Expiry: the arithmetic and the removal

An entry of the store carries the ABSOLUTE time at which it ends, 0 standing for "never".  Two
questions about that field.

* **Is it the time that was asked for?**  `TTL` of the store, of `ClusterStore` and of
  `HotStuffClusterStore` each compute `now + ttlMillis` in `int64`; the latter two put the sum in
  a record that is applied later.  `ttl_exact_iff` says for which inputs the key then lives until
  `now + ttlMillis`, a sum of integers: the sum must fit in an `int64`, must not be 0, the mark of
  entries that never end, and, if the record is applied later, the key must not have ended before.
* **Does it matter when expired keys are removed?**  `Get`, `Delete` and `TTL` remove an expired
  key they come across, `cleanupExpired` removes what the index lists.  The store is compared with
  a `TimedMap`, which removes nothing: `replies_eq`, for any calls at non-decreasing times and any
  passes in between, every reply is that of the map.
-/
import Cachey.Lib.TimedMap
import Cachey.Store.Install

namespace Cachey.Store

open Wal (Record)

/-! ## 1. The sum -/

/-- The range of an `int64`. -/
def InInt64 (n : Int) : Prop := -2 ^ 63 ≤ n ∧ n < 2 ^ 63

instance (n : Int) : Decidable (InInt64 n) := inferInstanceAs (Decidable (_ ∧ _))

variable {n now : Int} {key : String} {s : CacheyStore}

theorem i64_eq (h : InInt64 n) : i64 n = n := by
  unfold InInt64 at h
  unfold i64
  omega

theorem i64_wraps (h : 2 ^ 63 ≤ n) (h' : n < 2 ^ 64) : i64 n < 0 := by
  unfold i64
  omega

/-- The record `ClusterStore.TTL` proposes. -/
def clusterTTL (now : Int) (key : String) (ttlMillis : Int) : Record :=
  { op := .ttl, key := key, exp := i64 (now + ttlMillis) }

/-- The record `HotStuffClusterStore.TTL` proposes. -/
def hotStuffClusterTTL (now : Int) (key : String) (ttlMillis : Int) : Record :=
  { op := .ttl, key := key, exp := i64 (now + ttlMillis) }

/-- The three ways to set the expiry of a key. -/
inductive TTLCall where
  | store
  | cluster
  | hotStuffCluster
deriving DecidableEq

/-- The store once the call has taken effect: at once, or when its record is applied. -/
def TTLCall.effect (now applied : Int) (key : String) (ttlMillis : Int) (s : CacheyStore) :
    TTLCall → CacheyStore
  | .store => (s.ttl .ok now key ttlMillis).2.1
  | .cluster => (s.applyRecord applied (clusterTTL now key ttlMillis)).1
  | .hotStuffCluster => (s.applyRecord applied (hotStuffClusterTTL now key ttlMillis)).1

theorem TTLCall.lookup_effect (c : TTLCall) {applied : Int} (hc : c = .store → applied = now)
    (key : String) (ttlMillis : Int) (s : CacheyStore) :
    (c.effect now applied key ttlMillis s).data.lookup key =
      keyStep key applied (clusterTTL now key ttlMillis) (s.data.lookup key) := by
  have hrec : (s.applyRecord applied (clusterTTL now key ttlMillis)).1.data.lookup key =
      keyStep key applied (clusterTTL now key ttlMillis) (s.data.lookup key) :=
    CacheyStore.lookup_applyRecord key applied _ s
  cases c with
  | store =>
    rw [← hrec, hc rfl, effect]
    unfold CacheyStore.ttl
    cases hget : s.data.lookup key with
    | none => simp [CacheyStore.applyRecord, clusterTTL, CacheyStore.ttlAtLocked, hget]
    | some e => rfl
  | cluster => exact hrec
  | hotStuffCluster => exact hrec

theorem lookup_replay_of_other (key : String) : ∀ (rest : List (Record × Int)) (s : CacheyStore),
    (∀ ev ∈ rest, ev.1.key ≠ key) → (s.replay rest).data.lookup key = s.data.lookup key
  | [], _, _ => rfl
  | ev :: rest, s, h => by
    have hone : (s.applyRecord ev.2 ev.1).1.data.lookup key = s.data.lookup key := by
      rw [CacheyStore.lookup_applyRecord]
      unfold keyStep
      rw [if_pos (h ev List.mem_cons_self)]
    exact (lookup_replay_of_other key rest _ fun ev' h' => h ev' (List.mem_cons_of_mem _ h')).trans
      hone

/-- `Get` finds a value. -/
def Succeeds (t : Int) (key : String) (s : CacheyStore) : Prop := ∃ v, s.answer t key = .ok v

theorem succeeds_iff {t : Int} :
    Succeeds t key s ↔ ∃ e, s.data.lookup key = some e ∧ (e.exp = 0 ∨ t < e.exp) := by
  unfold Succeeds
  rw [CacheyStore.answer_eq]
  cases s.data.lookup key with
  | none => simp [answerOf]
  | some e =>
    by_cases hexp : isExpired t e = true
    · have hpast : e.exp ≠ 0 ∧ e.exp ≤ t := by simpa [isExpired] using hexp
      simp only [answerOf, hexp, if_true, Option.some.injEq, exists_eq_left']
      constructor
      · rintro ⟨v, hv⟩
        cases hv
      · omega
    · have hlive : e.exp = 0 ∨ t < e.exp := by
        simp only [isExpired, ne_eq, Bool.and_eq_true, decide_eq_true_eq, not_and] at hexp
        omega
      simp [answerOf, hexp, hlive]

/-- The inputs for which the expiry comes out right: the sum fits in an `int64` and is not 0; if the
key ended before the call was applied, so must the new expiry.  The last clause is about
replication: `TTL` computes the time when it is called and the record is applied when it is
committed. -/
def TTLFits (now applied ttlMillis : Int) (e : Entry) : Prop :=
  if isExpired applied e then now + ttlMillis ≤ applied
  else now + ttlMillis ≠ 0 ∧ now + ttlMillis < 2 ^ 63

/-- **When a TTL is exact.**  A key is there; a TTL call made at `now` takes effect at `applied`;
nothing else happens to the key.  `Get` then succeeds at exactly the times
before `now + ttlMillis` if and only if the inputs fit. -/
theorem ttl_exact_iff (c : TTLCall) (rest : List (Record × Int)) {s : CacheyStore}
    {key : String} {e : Entry} {now applied ttlMillis : Int}
    (hget : s.data.lookup key = some e) (hnow : 0 < now) (httl : InInt64 ttlMillis)
    (hle : now ≤ applied) (happ : InInt64 applied) (hc : c = .store → applied = now)
    (hrest : ∀ ev ∈ rest, ev.1.key ≠ key) :
    (∀ t, applied ≤ t → InInt64 t →
      (Succeeds t key ((c.effect now applied key ttlMillis s).replay rest) ↔
        t < now + ttlMillis)) ↔ TTLFits now applied ttlMillis e := by
  have hafter : ((c.effect now applied key ttlMillis s).replay rest).data.lookup key =
      if isExpired applied e then none else some { e with exp := i64 (now + ttlMillis) } := by
    rw [lookup_replay_of_other key rest _ hrest, c.lookup_effect hc, hget]
    simp [keyStep, clusterTTL]
  unfold TTLFits
  simp only [succeeds_iff, hafter]
  obtain ⟨hlow, hhigh⟩ := happ
  obtain ⟨tlow, thigh⟩ := httl
  by_cases hexp : isExpired applied e = true
  · simp only [hexp, if_true]
    constructor
    · intro h
      have hat := h applied le_rfl ⟨hlow, hhigh⟩
      simpa using hat
    · intro h t ht _
      simp only [reduceCtorEq, false_and, exists_false, false_iff]
      omega
  · simp only [hexp, Bool.false_eq_true, if_false, Option.some.injEq, exists_eq_left']
    constructor
    · intro h
      have hat := h applied le_rfl ⟨hlow, hhigh⟩
      constructor
      · -- a sum of 0 is stored as it is, and means never
        intro hzero
        rw [i64_eq (by rw [hzero]; decide), hzero] at hat
        have : applied < 0 := hat.mp (Or.inl rfl)
        omega
      · -- a sum that wraps is in the past
        by_contra hbig
        have hneg := i64_wraps (n := now + ttlMillis) (by omega) (by omega)
        have := hat.mpr (by omega)
        omega
    · rintro ⟨hne, hfit⟩ t _ _
      rw [i64_eq ⟨by omega, hfit⟩]
      omega

/-- A store that holds `k`. -/
def holdingK : CacheyStore := newCacheyStore.putLocked "k" "v"

theorem ttl_exact_minute :
    holdingK.data.lookup "k" = some ⟨"v", 0⟩ ∧
    ∀ t, 1000 ≤ t → InInt64 t →
      (Succeeds t "k" ((TTLCall.store.effect 1000 1000 "k" 60000 holdingK).replay []) ↔
        t < 1000 + 60000) :=
  ⟨by decide, (ttl_exact_iff .store [] (e := ⟨"v", 0⟩) (by decide) (by decide) (by decide) le_rfl
    (by decide) (fun _ => rfl) (by simp)).mpr (by
      unfold TTLFits
      decide)⟩

/-- The longest TTL there is ends a key at once; a TTL that counts back to the epoch makes it
permanent; and a key whose old expiry passes while the record is being replicated is gone, though
its TTL has a minute to go. -/
theorem ttl_exact_fails :
    Succeeds 1 "k" holdingK ∧ Succeeds 1000 "k" holdingK ∧
    (∀ c : TTLCall, ¬ Succeeds 1 "k" (c.effect 1 1 "k" (2 ^ 63 - 1) holdingK)) ∧
    (∀ c : TTLCall, Succeeds (2 ^ 63 - 1) "k" (c.effect 1000 1000 "k" (-1000) holdingK)) ∧
    Succeeds 1000 "k" (TTLCall.store.effect 900 900 "k" 200 holdingK) ∧
    ¬ Succeeds 1500 "k" (TTLCall.cluster.effect 1000 1500 "k" 60000
      (TTLCall.store.effect 900 900 "k" 200 holdingK)) := by
  have hthere : ∀ t, Succeeds t "k" holdingK := fun t => succeeds_iff.mpr ⟨_, rfl, Or.inl rfl⟩
  refine ⟨hthere 1, hthere 1000, fun c => ?_, fun c => ?_, ?_, ?_⟩
  · rw [succeeds_iff]
    cases c <;> decide
  · rw [succeeds_iff]
    cases c <;> decide
  · rw [succeeds_iff]
    decide
  · rw [succeeds_iff]
    decide

/-! ## 2. The calls, and the map they are compared with -/

/-- The calls of a client on an in-memory store. -/
inductive Query where
  | put (key value : String)
  | delete (key : String)
  | ttl (key : String) (ttlMillis : Int)
  | get (key : String)
deriving DecidableEq

/-- What a call returns; only `Get` returns a value. -/
abbrev QueryReply := Except StoreError (Option String)

def Query.run (now : Int) (s : CacheyStore) : Query → CacheyStore × QueryReply
  | .put key value =>
    let r := s.put .ok key value
    (r.2.1, r.2.2.map fun _ => none)
  | .delete key =>
    let r := s.delete .ok now key
    (r.2.1, r.2.2.map fun _ => none)
  | .ttl key ttlMillis =>
    let r := s.ttl .ok now key ttlMillis
    (r.2.1, r.2.2.map fun _ => none)
  | .get key =>
    let r := s.get now key
    (r.1, r.2.map some)

/-- A call of a client, or a pass of `cleanupExpired`. -/
inductive Activity where
  | query (q : Query)
  | cleanup (limit : Nat)
deriving DecidableEq

/-- The replies of a store to the calls of a history. -/
def replies : List (Int × Activity) → CacheyStore → List QueryReply
  | [], _ => []
  | (now, .query q) :: rest, s => (q.run now s).2 :: replies rest (q.run now s).1
  | (now, .cleanup limit) :: rest, s => replies rest (s.cleanupExpired now limit).1

/-- The reference: keys, values and times at which entries end. -/
abbrev Reference := TimedMap String String Int

/-- A key that is not there. -/
def orInvalidKey (present : Bool) : QueryReply := if present then .ok none else .error .invalidKey

/-- The call on the reference; its times are integers. -/
def Query.expected (now : Int) (m : Reference) : Query → Reference × QueryReply
  | .put key value => (m.put key value, .ok none)
  | .delete key => ((m.delete now key).1, orInvalidKey (m.delete now key).2)
  | .ttl key ttlMillis =>
    let r := m.expireAt now key (now + ttlMillis)
    (r.1, orInvalidKey r.2)
  | .get key =>
    (m, match m.get now key with
      | none => .error .invalidKey
      | some v => .ok (some v))

/-- The replies of the reference, which knows of no passes. -/
def expectedReplies : List (Int × Query) → Reference → List QueryReply
  | [], _ => []
  | (now, q) :: rest, m => (q.expected now m).2 :: expectedReplies rest (q.expected now m).1

/-- The calls of a history, without the passes. -/
def queries (turns : List (Int × Activity)) : List (Int × Query) :=
  turns.filterMap fun
    | (now, .query q) => some (now, q)
    | (_, .cleanup _) => none

/-- The call asks for an expiry that the store can represent. -/
def Query.Fits (now : Int) : Query → Prop
  | .ttl _ ttlMillis => InInt64 (now + ttlMillis) ∧ now + ttlMillis ≠ 0
  | _ => True

instance (now : Int) (q : Query) : Decidable (q.Fits now) :=
  match q with
  | .ttl _ _ => inferInstanceAs (Decidable (_ ∧ _))
  | .put _ _ | .delete _ | .get _ => inferInstanceAs (Decidable True)

def Activity.Fits (now : Int) : Activity → Prop
  | .query q => q.Fits now
  | .cleanup _ => True

instance (now : Int) (tn : Activity) : Decidable (tn.Fits now) :=
  match tn with
  | .query q => inferInstanceAs (Decidable (q.Fits now))
  | .cleanup _ => inferInstanceAs (Decidable True)

/-! ## 3. The store as a timed map -/

def Entry.timed (e : Entry) : String × Option Int :=
  (e.value, if e.exp = 0 then none else some e.exp)

/-- The store as a timed map; expired keys that are still there included. -/
def CacheyStore.timed (s : CacheyStore) : Reference := fun k => (s.data.lookup k).map Entry.timed

theorem current_timed (now : Int) (e : Entry) :
    TimedMap.current now e.timed = !isExpired now e := by
  unfold TimedMap.current Entry.timed isExpired
  by_cases hzero : e.exp = 0
  · simp [hzero]
  · by_cases hpast : e.exp ≤ now
    · simp [hzero, hpast]
    · simp [hzero, hpast, not_le.mp hpast]

theorem view_timed (now : Int) (s : CacheyStore) (k : String) :
    s.timed.view now k = (s.live now k).map Entry.timed := by
  unfold TimedMap.view CacheyStore.timed CacheyStore.live
  cases s.data.lookup k with
  | none => rfl
  | some e => cases hexp : isExpired now e <;> simp [Option.filter_some, current_timed, hexp]

theorem timed_eq_update {s' : CacheyStore} {e : Option Entry}
    (h : ∀ k, s'.data.lookup k = if k = key then e else s.data.lookup k) :
    s'.timed = Function.update s.timed key (e.map Entry.timed) := by
  funext k
  unfold CacheyStore.timed
  rw [h k]
  by_cases hk : k = key
  · subst hk
    simp
  · simp [hk]

section Views

variable {now : Int} {s : CacheyStore} {key : String} {e : Entry}

theorem view_of_absent (h : s.data.lookup key = none) : s.timed.view now key = none := by
  rw [view_timed, CacheyStore.live, h]
  rfl

theorem view_of_expired (h : s.data.lookup key = some e) (hexp : isExpired now e = true) :
    s.timed.view now key = none := by
  rw [view_timed, CacheyStore.live, h]
  simp [hexp]

theorem view_of_live (h : s.data.lookup key = some e) (hexp : isExpired now e = false) :
    s.timed.view now key = some e.timed := by
  rw [view_timed, live_eq_some_iff.mpr ⟨h, hexp⟩]
  rfl

theorem alike_of_erased {s' : CacheyStore}
    (h : ∀ k, s'.data.lookup k = if k = key then none else s.data.lookup k)
    (hget : s.data.lookup key = some e) (hexp : isExpired now e = true) :
    TimedMap.Alike now s'.timed s.timed := by
  rw [timed_eq_update h]
  exact TimedMap.Alike.drop (view_of_expired hget hexp)

end Views

/-! ## 4. Every call, and every pass

Each call is matched with the call on the map.  The two need not be EQUAL afterwards, since the
store may have dropped a key that the map still carries along with its end in the past; they look
alike, and will as long as the clock does not go back. -/

theorem Query.expected_congr {m m' : Reference} (h : TimedMap.Alike now m m') (q : Query) :
    TimedMap.Alike now (q.expected now m).1 (q.expected now m').1 ∧
      (q.expected now m).2 = (q.expected now m').2 := by
  cases q with
  | put key value => exact ⟨h.put key value, rfl⟩
  | delete key =>
    obtain ⟨hm, hb⟩ := h.delete key
    exact ⟨hm, congrArg orInvalidKey hb⟩
  | ttl key ttlMillis =>
    obtain ⟨hm, hb⟩ := h.expireAt key (now + ttlMillis)
    exact ⟨hm, congrArg orInvalidKey hb⟩
  | get key =>
    refine ⟨h, ?_⟩
    simp only [Query.expected, h.get key]

section Simulation

variable {now : Int} {s : CacheyStore}

theorem put_simulated (key value : String) :
    ((Query.put key value).run now s).1.timed = ((Query.put key value).expected now s.timed).1 :=
  timed_eq_update (e := some { value := value, exp := 0 })
    fun k => CacheyStore.lookup_putLocked k key value s

theorem delete_simulated (key : String) :
    TimedMap.Alike now ((Query.delete key).run now s).1.timed
        ((Query.delete key).expected now s.timed).1 ∧
      ((Query.delete key).run now s).2 = ((Query.delete key).expected now s.timed).2 := by
  have hlook := fun k => CacheyStore.lookup_deleteLocked k key now s
  simp only [Query.run, Query.expected, CacheyStore.delete, TimedMap.delete]
  cases hget : s.data.lookup key with
  | none =>
    rw [view_of_absent hget]
    exact ⟨TimedMap.Alike.refl _, rfl⟩
  | some e =>
    cases hexp : isExpired now e with
    | true =>
      rw [view_of_expired hget hexp]
      refine ⟨alike_of_erased hlook hget hexp, ?_⟩
      simp [CacheyStore.deleteLocked, hget, hexp, orInvalidKey, Except.map]
    | false =>
      rw [view_of_live hget hexp]
      have heq := timed_eq_update (e := none) hlook
      refine ⟨fun k => congrFun (congrArg (TimedMap.view now) heq) k, ?_⟩
      simp [CacheyStore.deleteLocked, hget, hexp, orInvalidKey, Except.map]

theorem ttl_simulated (key : String) {ttlMillis : Int} (hfit : InInt64 (now + ttlMillis))
    (hne : now + ttlMillis ≠ 0) :
    TimedMap.Alike now ((Query.ttl key ttlMillis).run now s).1.timed
        ((Query.ttl key ttlMillis).expected now s.timed).1 ∧
      ((Query.ttl key ttlMillis).run now s).2 =
        ((Query.ttl key ttlMillis).expected now s.timed).2 := by
  have hlook := fun k => CacheyStore.lookup_ttlAtLocked k key now (now + ttlMillis) s
  simp only [Query.run, Query.expected, CacheyStore.ttl, TimedMap.expireAt, i64_eq hfit]
  cases hget : s.data.lookup key with
  | none =>
    rw [view_of_absent hget]
    exact ⟨TimedMap.Alike.refl _, rfl⟩
  | some e =>
    simp only [hget, Option.bind_some] at hlook
    cases hexp : isExpired now e with
    | true =>
      simp only [hexp, if_true] at hlook
      rw [view_of_expired hget hexp]
      refine ⟨alike_of_erased hlook hget hexp, ?_⟩
      simp [CacheyStore.ttlAtLocked, hget, hexp, orInvalidKey, Except.map]
    | false =>
      simp only [hexp, Bool.false_eq_true, if_false] at hlook
      rw [view_of_live hget hexp]
      have heq := timed_eq_update hlook
      have hnew : Entry.timed { e with exp := now + ttlMillis } =
          (e.timed.1, some (now + ttlMillis)) := by simp [Entry.timed, hne]
      rw [Option.map_some, hnew] at heq
      refine ⟨fun k => congrFun (congrArg (TimedMap.view now) heq) k, ?_⟩
      simp [CacheyStore.ttlAtLocked, hget, hexp, orInvalidKey, Except.map]

theorem get_simulated (key : String) :
    TimedMap.Alike now ((Query.get key).run now s).1.timed
        ((Query.get key).expected now s.timed).1 ∧
      ((Query.get key).run now s).2 = ((Query.get key).expected now s.timed).2 := by
  simp only [Query.run, Query.expected, CacheyStore.get, TimedMap.get]
  cases hget : s.data.lookup key with
  | none =>
    rw [view_of_absent hget]
    exact ⟨TimedMap.Alike.refl _, rfl⟩
  | some e =>
    cases hexp : isExpired now e with
    | true =>
      rw [view_of_expired hget hexp]
      simp only [hexp, if_true]
      refine ⟨alike_of_erased (fun k => ?_) hget hexp, rfl⟩
      simp [CacheyStore.expireKey, hget, hexp, GoMap.lookup_erase_of]
    | false =>
      rw [view_of_live hget hexp]
      simp only [hexp, Bool.false_eq_true, if_false]
      exact ⟨TimedMap.Alike.refl _, rfl⟩

end Simulation

theorem Query.simulated (s : CacheyStore) {q : Query} (hfit : q.Fits now) :
    TimedMap.Alike now (q.run now s).1.timed (q.expected now s.timed).1 ∧
      (q.run now s).2 = (q.expected now s.timed).2 := by
  cases q with
  | put key value =>
    rw [← put_simulated key value]
    exact ⟨TimedMap.Alike.refl _, rfl⟩
  | delete key => exact delete_simulated key
  | ttl key ttlMillis => exact ttl_simulated key hfit.1 hfit.2
  | get key => exact get_simulated key

theorem cleanupLoop_alike (now : Int) : ∀ (turns limit : Nat) (s : CacheyStore),
    TimedMap.Alike now (CacheyStore.cleanupLoop now turns limit s).1.timed s.timed
  | 0, _, _ => TimedMap.Alike.refl _
  | _ + 1, 0, _ => TimedMap.Alike.refl _
  | turns + 1, limit + 1, s => by
    unfold CacheyStore.cleanupLoop
    split
    next hne =>
      dsimp only
      split
      · exact TimedMap.Alike.refl _
      split
      · exact cleanupLoop_alike now turns (limit + 1) _
      next e hget =>
        split
        next hstill =>
          refine (cleanupLoop_alike now turns limit _).trans ?_
          exact alike_of_erased (fun _ => GoMap.lookup_erase_of) hget hstill.2
        next => exact cleanupLoop_alike now turns (limit + 1) _
    next => exact TimedMap.Alike.refl _

/-! ## 5. Whole histories -/

/-- A store that looks like the map keeps answering like it, whatever is called and cleaned up. -/
theorem replies_of_alike : ∀ (turns : List (Int × Activity)) {now : Int} {s : CacheyStore}
    {m : Reference}, TimedMap.Alike now s.timed m → (∀ tn ∈ turns, now ≤ tn.1) →
    turns.Pairwise (fun a b => a.1 ≤ b.1) →
    (∀ tn ∈ turns, tn.2.Fits tn.1) →
    replies turns s = expectedReplies (queries turns) m
  | [], _, _, _, _, _, _, _ => rfl
  | (t, .query q) :: rest, now, s, m, h, hnow, hmono, hfit => by
    obtain ⟨hlater, hmono⟩ := List.pairwise_cons.mp hmono
    have hrest := fun tn h => hfit tn (List.mem_cons_of_mem _ h)
    -- time passes, the call is made
    have ht := h.later (hnow _ List.mem_cons_self)
    obtain ⟨hs, hreply⟩ := Query.simulated s (hfit _ List.mem_cons_self)
    obtain ⟨hm, hreply'⟩ := Query.expected_congr ht q
    have hnext := replies_of_alike rest (hs.trans hm) hlater hmono hrest
    simp only [replies, queries, List.filterMap_cons, expectedReplies]
    rw [hreply, hreply', hnext]
    rfl
  | (t, .cleanup limit) :: rest, now, s, m, h, hnow, hmono, hfit => by
    obtain ⟨hlater, hmono⟩ := List.pairwise_cons.mp hmono
    have hrest := fun tn h => hfit tn (List.mem_cons_of_mem _ h)
    have ht := h.later (hnow _ List.mem_cons_self)
    have hpass := (cleanupLoop_alike t s.index.card limit s).trans ht
    exact replies_of_alike rest hpass hlater hmono hrest

/-- **Expiration is transparent.**  For any calls at non-decreasing times and any passes of
`cleanupExpired` between them, the store replies what a timed map replies that never removes an
expired key and has never heard of the passes. -/
theorem replies_eq (turns : List (Int × Activity)) (hmono : turns.Pairwise (fun a b => a.1 ≤ b.1))
    (hfit : ∀ tn ∈ turns, tn.2.Fits tn.1) :
    replies turns newCacheyStore = expectedReplies (queries turns) TimedMap.empty := by
  cases turns with
  | nil => rfl
  | cons tn rest =>
    have hfirst : ∀ tn' ∈ tn :: rest, tn.1 ≤ tn'.1 := by
      intro tn' h
      rcases List.mem_cons.mp h with rfl | h
      · exact le_rfl
      · exact (List.pairwise_cons.mp hmono).1 tn' h
    have hstart : TimedMap.Alike tn.1 newCacheyStore.timed TimedMap.empty := TimedMap.Alike.refl _
    exact replies_of_alike _ hstart hfirst hmono hfit

/-- A key is given an expiry, cleaned up, and put again without one. -/
def expiresAndReturns : List (Int × Activity) :=
  [(10, .query (.put "k" "v")), (10, .query (.ttl "k" 5)), (14, .query (.get "k")),
   (15, .cleanup 100), (15, .query (.delete "k")), (16, .query (.put "k" "w")),
   (20, .cleanup 100), (30, .query (.get "k"))]

theorem replies_expiresAndReturns :
    replies expiresAndReturns newCacheyStore =
      [.ok none, .ok none, .ok (some "v"), .error .invalidKey, .ok none, .ok (some "w")] := by
  rw [replies_eq expiresAndReturns (by decide) (by decide)]
  decide

end Cachey.Store
