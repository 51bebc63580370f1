/-
# Entries the transport reads later

`replicateTo` does not copy the entries it sends: `slice` is a window on the array behind the log.
The lock is released, and the transport marshals the request when it gets to it: after dialling,
and after the request before it on the same connection.  Until then the log may be cut and
appended to, and an append after a cut writes into the SAME array.  What goes out under the old
term and the old `PrevLogIndex` is then what a later leader has put there.

The cluster of `System` fixes the entries of a request when the lock is released.  Here it gets
the arrays (`SharedState`): a request of `replicateTo` is a DRAFT until it is marshalled, one
entry after the other, each read from the array as it stands at that moment; only then can it be
served.

* `conflict`: the only step that changes a draft is an AppendEntries that cuts the log of the
  draft's sender inside the entries it has still to read (`Undisturbed` excludes it).
* `SharedInv.project`: a run in which this does not happen is a run of the cluster of `System`.
  State machine safety, log matching and leader completeness follow for it.
* Section 8 is a run in which it does happen, and all three fail.

An entry is read in one piece: that a concurrent write tears it is left out.
-/
import Cachey.Lib.Backing
import Cachey.Raft.Safety

namespace Cachey.Raft

variable {σ : Type}

/-! ## 1. The array behind a log

The log of a node is changed in two ways only: entries are stored one by one, each at a cell of the
array, or the slice is built anew from a literal (`compact`, `reset`).  A leader stores the entry it
adds, a follower what it is sent.  `stores` names these entries for every action, so that the array
can be followed beside the code of the node instead of inside it. -/

namespace Log

/-- The cell that the second loop of `HandleAppendEntries` writes for `e` at `idx`: that of a
conflicting entry, or the one behind the last. -/
def cell (l : Log) (idx : ℕ) (e : Entry) : Option ℕ :=
  if idx ≤ l.lastIndex then if l.termAt idx ≠ e.term then some (idx - l.base) else none
  else some l.entries.length

/-- `append(l.entries[:p], e)`. -/
def writeAt (p : ℕ) (e : Entry) (l : Log) : Log := { l with entries := l.entries.take p ++ [e] }

/-- The loop, on the log and on its array; `g` says how many cells a new array has to spare. -/
def store (g : ℕ → ℕ → ℕ) : (idx : ℕ) → List Entry → Log × Arrays Entry → Log × Arrays Entry
  | _, [], x => x
  | idx, e :: es, (l, m) => store g (idx + 1) es <|
    match l.cell idx e with
    | some p => (l.writeAt p e, m.put g p e)
    | none => (l, m)

/-- The first index at which the entries conflict with the log.  Storing them writes no cell below
it, so a draft that has nothing left to read from there on is safe. -/
def conflict (l : Log) : (idx : ℕ) → List Entry → Option ℕ
  | _, [] => none
  | idx, e :: es =>
    if idx ≤ l.lastIndex then if l.termAt idx ≠ e.term then some idx else conflict l (idx + 1) es
    else none

/-- The array after a critical section: `compact` and `reset` raise the base and start from the
literal of one entry. -/
def rehouse (g : ℕ → ℕ → ℕ) (old new : Log) (m : Arrays Entry) : Arrays Entry :=
  if new.base = old.base then m
  else m.move (if new.entries.length = 1 then 0 else g 1 new.entries.length) new.entries

end Log

/-- `HandleAppendEntries` gets to its second loop. -/
def Node.takes (E : Env σ) (args : AppendEntries) (n : Node σ) : Bool :=
  n.accepts args && ((n.followLeader args.term args.leaderID).persistLoop E
    (args.prevLogIndex + 1) args.entries).2

/-- The no-op that `tryBecomeLeader` adds to the log, if it gets there. -/
def Node.inaugural (E : Env σ) (t : ℕ) (n : Node σ) : Option Entry :=
  bif (n.takeOffice E t).2 then some { term := t } else none

/-- The entry that a submission adds to the log, if it can be made durable. -/
def Node.submitted (E : Env σ) : Except Error (Node σ × Entry) → Option Entry
  | .error _ => none
  | .ok (n, e) => bif (n.addEntry E e).2 then some e else none

/-- The entry that the action adds to its actor's log as a leader, if any. -/
def ClusterState.written (E : Env σ) (s : ClusterState σ) : Action → Option Entry
  | .promote e => s.elections[e]?.bind fun el => (s.node el.node).inaugural E el.term
  | .propose r command => Node.submitted E ((s.node r).proposed command)
  | .addServer r id addr => Node.submitted E ((s.node r).addition id addr)
  | .removeServer r id => Node.submitted E ((s.node r).removal id)
  | _ => none

/-- What a leader stores that adds an entry to its own log. -/
def Node.own (n : Node σ) : Option Entry → ℕ × List Entry
  | some e => (n.log.lastIndex + 1, [e])
  | none => (0, [])

/-- The entries an action stores in its actor's log, and the index of the first. -/
def ClusterState.stores (E : Env σ) (s : ClusterState σ) : Action → ℕ × List Entry
  | .serve k => match s.calls[k]? with
    | some { callee := r, rpc := .append _ args _, .. } =>
      if (s.node r).takes E args then (args.prevLogIndex + 1, args.entries) else (0, [])
    | _ => (0, [])
  | a => (s.node (s.actor a)).own (s.written E a)

/-! ## 2. The cluster with its arrays -/

/-- A request of `replicateTo` that is not marshalled yet: the entries already read, and where
the others stand. -/
structure Draft where
  owner : String
  call : ℕ
  read : List Entry := []
  rest : Window
deriving DecidableEq

structure SharedState (σ : Type) where
  cluster : ClusterState σ
  arrays : String → Arrays Entry
  drafts : List Draft

/-- Every server has just been started. -/
def Cluster.shared (K : Cluster σ) : SharedState σ where
  cluster := K.start
  arrays := fun _ => Arrays.single { term := 0 }
  drafts := []

def Call.carrying (es : List Entry) (c : Call) : Call :=
  match c.rpc with
  | .append i args replies => { c with rpc := .append i { args with entries := es } replies }
  | _ => c

/-- A step of the cluster, or the transport reads the next entry of a draft. -/
inductive SharedLabel where
  | step (l : Label)
  | read (d : ℕ)

def SharedLabel.settled : SharedLabel → Bool
  | .step l => l.action.settled
  | .read _ => true

namespace SharedState

/-- The array of the actor after a step. -/
def touched (E : Env σ) (K : Cluster σ) (g : ℕ → ℕ → ℕ) (s : SharedState σ) (l : Label) :
    Arrays Entry :=
  let c := s.cluster.arm l
  let r := c.actor l.action
  let x := c.stores E l.action
  Log.rehouse g (c.node r).log ((c.perform E K l.action).node r).log
    (Log.store g x.1 x.2 ((c.node r).log, s.arrays r)).2

/-- The draft a step starts: entries that `replicateTo` has sliced. -/
def drafted (s : SharedState σ) : Action → List Draft
  | .replicate j => match s.cluster.spawned[j]? with
    | some (r, peer) => match (s.cluster.node r).replicateTo peer with
      | .append args =>
        if args.entries = [] then []
        else
          [{ owner := r, call := s.cluster.calls.length
             rest := { arr := (s.arrays r).current
                       pos := args.prevLogIndex + 1 - (s.cluster.node r).log.base
                       len := args.entries.length } }]
      | _ => []
    | none => []
  | _ => []

def step (E : Env σ) (K : Cluster σ) (g : ℕ → ℕ → ℕ) (s : SharedState σ) (l : Label) :
    SharedState σ where
  cluster := s.cluster.act E K l
  arrays := fun q =>
    if q = s.cluster.actor l.action then s.touched E K g l else s.arrays q
  drafts := s.drafts ++ s.drafted l.action

/-- The transport reads one entry, and sends the request after the last. -/
def readNext (s : SharedState σ) (k : ℕ) (d : Draft) : SharedState σ :=
  let read := d.read ++ [((s.arrays d.owner).cells d.rest.arr).getD d.rest.pos default]
  let rest : Window := { d.rest with pos := d.rest.pos + 1, len := d.rest.len - 1 }
  if rest.len = 0 then
    { s with
      cluster := { s.cluster with calls := s.cluster.calls.modify d.call (Call.carrying read) }
      drafts := s.drafts.eraseIdx k }
  else { s with drafts := s.drafts.set k { d with read := read, rest := rest } }

def act (E : Env σ) (K : Cluster σ) (g : ℕ → ℕ → ℕ) (s : SharedState σ) :
    SharedLabel → SharedState σ
  | .step l => s.step E K g l
  | .read k => match s.drafts[k]? with
    | some d => s.readNext k d
    | none => s

/-- The sender still waits for a reply. -/
def live (s : SharedState σ) (d : Draft) : Bool := s.cluster.calls[d.call]?.any Call.waiting

/-- A request is served once it is marshalled; one that was given up before never is. -/
def sent (s : SharedState σ) : Action → Bool
  | .serve k => s.drafts.all fun d => d.call ≠ k
  | _ => true

/-- A step that can happen, in a cluster without crashes. -/
def Enabled (E : Env σ) (K : Cluster σ) (s : SharedState σ) : SharedLabel → Prop
  | .step l => s.cluster.Enabled E K l ∧ l.crash = false ∧ s.sent l.action = true
  | .read k => s.drafts[k]?.any s.live = true

instance (E : Env σ) (K : Cluster σ) (s : SharedState σ) : ∀ l, Decidable (s.Enabled E K l)
  | .step _ => inferInstanceAs (Decidable (_ ∧ _))
  | .read _ => inferInstanceAs (Decidable (_ = _))

/-- The cluster with its arrays as a machine. -/
def machine (E : Env σ) (K : Cluster σ) (g : ℕ → ℕ → ℕ) :
    Machine (SharedState σ) SharedLabel where
  enabled := fun s l => s.Enabled E K l
  act := fun s l => s.act E K g l

/-- The machine of a cluster with fixed voters. -/
def calm (E : Env σ) (K : Cluster σ) (g : ℕ → ℕ → ℕ) :
    Machine (SharedState σ) SharedLabel :=
  (machine E K g).restrict fun _ l => l.settled = true

instance (E : Env σ) (K : Cluster σ) (g : ℕ → ℕ → ℕ) (s : SharedState σ) (l : SharedLabel) :
    Decidable ((calm E K g).enabled s l) :=
  inferInstanceAs (Decidable (s.Enabled E K l ∧ _))

/-- **The condition.**  An AppendEntries that cuts the log does so behind every entry that a draft
of this server has still to read from the log's present array.  It is a condition on the state
before the step and on the request: where the entries conflict is found by comparing terms, as the
handler does.  Drafts nobody waits for, and those that read from an array the log has left, are
exempt. -/
def Undisturbed (E : Env σ) (s : SharedState σ) : SharedLabel → Prop
  | .step l =>
    let c := s.cluster.arm l
    let r := c.actor l.action
    ∀ cut ∈ (c.node r).log.conflict (c.stores E l.action).1 (c.stores E l.action).2,
      ∀ d ∈ s.drafts, d.owner = r → s.live d = true → d.rest.arr = (s.arrays r).current →
        d.rest.pos + d.rest.len ≤ cut - (c.node r).log.base
  | .read _ => True

instance (E : Env σ) (s : SharedState σ) : ∀ l, Decidable (s.Undisturbed E l)
  | .step _ => inferInstanceAs (Decidable (∀ cut ∈ (_ : Option ℕ), _))
  | .read _ => inferInstanceAs (Decidable True)

end SharedState

/-! ## 3. The array follows the log

Storing on the array gives the entries the log has afterwards, and no cell before the first conflict
is written.  What lies there is safe for whoever still reads it. -/

section Following

variable {g : ℕ → ℕ → ℕ} {l l' : Log} {m : Arrays Entry} {idx p c : ℕ} {e : Entry}
  {es : List Entry} {E : Env σ} {n : Node σ}

/-- What a critical section has done to the log after its appends: nothing, or a compaction. -/
def Log.After (l l' : Log) : Prop := l' = l ∨ l.base < l'.base

theorem Log.After.trans {l'' : Log} (h : l.After l') (h' : l'.After l'') : l.After l'' := by
  rcases h with rfl | hlt
  · exact h'
  · rcases h' with rfl | hlt'
    · exact Or.inr hlt
    · exact Or.inr (hlt.trans hlt')

/-- Appends that write no cell before `p`. -/
structure Log.Stored (p : ℕ) (x y : Log × Arrays Entry) : Prop where
  base : y.1.base = x.1.base
  shows : x.2.Shows x.1.entries → y.2.Shows y.1.entries
  length : p ≤ y.1.entries.length
  before : ∀ w, x.2.Before p w → y.2.Before p w ∧ y.2.window w = x.2.window w

theorem Log.Stored.trans {x y z : Log × Arrays Entry} (h : Log.Stored p x y)
    (h' : Log.Stored p y z) : Log.Stored p x z where
  base := h'.base.trans h.base
  shows := fun hx => h'.shows (h.shows hx)
  length := h'.length
  before := fun w hw =>
    ⟨(h'.before w (h.before w hw).1).1,
      (h'.before w (h.before w hw).1).2.trans (h.before w hw).2⟩

theorem Log.Stored.writeAt (hp : p ≤ c) (hc : c ≤ l.entries.length) :
    Log.Stored p (l, m) (l.writeAt c e, m.put g c e) where
  base := rfl
  shows := fun h => h.put hc
  length := by
    change p ≤ (l.entries.take c ++ [e]).length
    rw [List.length_append, List.length_take_of_le hc]
    exact hp.trans (Nat.le_succ c)
  before := fun w hw => ⟨Arrays.before_put hw, Arrays.window_put (hw.mono hp)⟩

theorem Log.conflict_beyond (h : l.lastIndex < idx) : ∀ es, l.conflict idx es = none
  | [] => rfl
  | _ :: _ => if_neg (not_le.mpr h)

theorem Log.lastIndex_writeAt (hc : c ≤ l.entries.length) :
    (l.writeAt c e).lastIndex = l.base + c := by
  change l.base + (l.entries.take c ++ [e]).length - 1 = _
  rw [List.length_append, List.length_take_of_le hc]
  rfl

/-- **The loop writes no cell before the first conflict.** -/
theorem Log.Stored.store : ∀ (es : List Entry) (idx : ℕ) (l : Log) (m : Arrays Entry),
    p ≤ l.entries.length → (∀ cut ∈ l.conflict idx es, p ≤ cut - l.base) →
    Log.Stored p (l, m) (Log.store g idx es (l, m))
  | [], _, _, _, hp, _ => ⟨rfl, id, hp, fun _ hw => ⟨hw, rfl⟩⟩
  | e :: es, idx, l, m, hp, hcut => by
    unfold Log.store
    unfold Log.conflict at hcut
    unfold Log.cell
    by_cases hin : idx ≤ l.lastIndex
    · rw [if_pos hin] at hcut ⊢
      by_cases hterm : l.termAt idx ≠ e.term
      · -- the cut: behind it there is nothing left to conflict with
        rw [if_pos hterm] at hcut ⊢
        have hle : idx - l.base ≤ l.entries.length := by unfold Log.lastIndex at hin; omega
        have hp' := hcut idx rfl
        have hwrite := Log.Stored.writeAt (m := m) (g := g) (e := e) hp' hle
        refine hwrite.trans (Log.Stored.store es _ _ _ hwrite.length fun cut hcut' => ?_)
        rcases Nat.lt_or_ge idx l.base with hlow | hbase
        · omega
        · rw [Log.conflict_beyond (by rw [Log.lastIndex_writeAt hle]; omega)] at hcut'
          cases hcut'
      · rw [if_neg hterm] at hcut ⊢
        exact Log.Stored.store es _ l m hp hcut
    · rw [if_neg hin]
      have hwrite := Log.Stored.writeAt (m := m) (g := g) (e := e) hp (le_refl _)
      refine hwrite.trans (Log.Stored.store es _ _ _ hwrite.length fun cut hcut' => ?_)
      rw [Log.conflict_beyond (by
        rw [Log.lastIndex_writeAt (le_refl _)]; unfold Log.lastIndex at hin; omega)] at hcut'
      cases hcut'

/-- How much of the array the entries leave alone: the cells before the first conflict. -/
def Log.spared (l : Log) (x : ℕ × List Entry) : ℕ :=
  match l.conflict x.1 x.2 with
  | some cut => cut - l.base
  | none => l.entries.length

theorem Log.conflict_le : ∀ (es : List Entry) (idx : ℕ) {cut : ℕ}, l.conflict idx es = some cut →
    cut ≤ l.lastIndex
  | [], _, _, h => by cases h
  | e :: es, idx, cut, h => by
    unfold Log.conflict at h
    split at h
    next hin =>
      split at h
      · cases h
        exact hin
      · exact Log.conflict_le es _ h
    · cases h

theorem Log.spared_le (l : Log) (x : ℕ × List Entry) : l.spared x ≤ l.entries.length := by
  unfold Log.spared
  split
  next cut hcut =>
    have hle := Log.conflict_le _ _ hcut
    unfold Log.lastIndex at hle
    omega
  · exact le_refl _

theorem Log.Stored.spared (l : Log) (m : Arrays Entry) (x : ℕ × List Entry) :
    Log.Stored (l.spared x) (l, m) (Log.store g x.1 x.2 (l, m)) := by
  refine Log.Stored.store _ _ _ _ (l.spared_le x) fun cut hcut => ?_
  unfold Log.spared
  rw [Option.mem_def.mp hcut]

theorem Log.append_eq_writeAt (l : Log) (e : Entry) : l.append e = l.writeAt l.entries.length e := by
  unfold Log.append Log.writeAt
  rw [List.take_length]

theorem Log.store_append (l : Log) (e : Entry) (m : Arrays Entry) :
    (Log.store g (l.lastIndex + 1) [e] (l, m)).1 = l.append e := by
  have hcell : l.cell (l.lastIndex + 1) e = some l.entries.length :=
    if_neg (not_le.mpr (Nat.lt_succ_self _))
  unfold Log.store
  rw [hcell, Log.append_eq_writeAt]
  rfl

theorem Node.overwrite_log (idx : ℕ) (e : Entry) (n : Node σ) :
    (n.overwrite idx e).log = n.log.writeAt (idx - n.log.base) e := by
  unfold Node.overwrite
  dsimp only
  split <;> split <;> rfl

theorem Node.appendLoop_log : ∀ (es : List Entry) (idx : ℕ) (n : Node σ) (m : Arrays Entry),
    (n.appendLoop idx es).log = (Log.store g idx es (n.log, m)).1
  | [], _, _, _ => rfl
  | e :: es, idx, n, m => by
    unfold Node.appendLoop Log.store Log.cell
    by_cases hin : idx ≤ n.log.lastIndex
    · rw [if_pos hin, if_pos hin]
      by_cases hterm : n.log.termAt idx ≠ e.term
      · rw [if_pos hterm, if_pos hterm]
        dsimp only
        rw [← Node.overwrite_log]
        exact Node.appendLoop_log es _ _ _
      · rw [if_neg hterm, if_neg hterm]
        exact Node.appendLoop_log es _ _ _
    · rw [if_neg hin, if_neg hin]
      dsimp only
      rw [← Log.append_eq_writeAt]
      exact Node.appendLoop_log es _ { n with log := n.log.append e } _

theorem Node.maybeCompactLocked_log (E : Env σ) (n : Node σ) :
    n.log.After (n.maybeCompactLocked E).log := by
  rcases n.maybeCompactLocked_cases E with ⟨_, heq⟩ | ⟨hlt, _, _, heq, -⟩
  · exact Or.inl (by rw [heq])
  · refine Or.inr ?_
    rw [heq]
    unfold Log.compact
    split <;> exact hlt

theorem Node.applyNext_log (E : Env σ) (n : Node σ) : n.log.After (n.applyNext E).log := by
  unfold Node.applyNext
  dsimp only
  split
  · obtain ⟨_, _, _, _, _, heq, -⟩ := applyConfigLocked_cases _ _ { n with
      lastApplied := n.lastApplied + 1
      applied := (n.lastApplied + 1, n.log.entryAt (n.lastApplied + 1)) :: n.applied }
    exact Or.inl (by rw [heq])
  · exact Node.maybeCompactLocked_log E _
  · exact Or.inl rfl

theorem Node.applyLoop_log (E : Env σ) : ∀ (turns : ℕ) (n : Node σ),
    n.log.After (Node.applyLoop E turns n).log
  | 0, _ => Or.inl rfl
  | turns + 1, n => (n.applyNext_log E).trans (Node.applyLoop_log E turns _)

theorem Node.updateCommitIndexLocked_log (E : Env σ) (n : Node σ) :
    n.log.After (n.updateCommitIndexLocked E).log := by
  obtain ⟨_, heq, -⟩ := Node.commitLoop_cases (n.log.lastIndex - n.commitIndex)
    (n.commitIndex + 1) n
  unfold Node.updateCommitIndexLocked
  rw [heq]
  exact Node.applyLoop_log E _ _

theorem Node.commitIf_log (E : Env σ) {x : Node σ × Bool} (h : x.1.log = l) :
    l.After (Node.commitIf E x).log := by
  rcases x with ⟨n, _ | _⟩
  · exact Or.inl h
  · exact h ▸ n.updateCommitIndexLocked_log E

end Following

/-! ## 4. Steps on logs and calls

One lemma for each action: which log it touches and what it stores there.  Terms, votes and commit
indices do not matter; what `HandleAppendEntries` stores is read off the request, whoever sent it.
-/

section Steps

variable {g : ℕ → ℕ → ℕ} {l : Log} {m : Arrays Entry} {E : Env σ} {K : Cluster σ}
  {n n' : Node σ} {s : ClusterState σ}

/-- The log after a step of a node that has stored `x` in it. -/
def Node.Stores (g : ℕ → ℕ → ℕ) (m : Arrays Entry) (x : ℕ × List Entry) (n n' : Node σ) :
    Prop :=
  (Log.store g x.1 x.2 (n.log, m)).1.After n'.log

theorem Node.Talked.stores (h : Talked n n') : n.Stores g m (0, []) n' :=
  Or.inl h.log

theorem Node.Logged.log (h : Logged n n') : n'.log = n.log := by
  obtain ⟨_, _, rfl⟩ := h
  rfl

theorem Node.stores_own {e : Entry} (h : n'.log = n.log.append e) :
    n.Stores g m (n.own (some e)) (n'.updateCommitIndexLocked E) := by
  unfold Node.Stores Node.own
  rw [Log.store_append, ← h]
  exact Node.updateCommitIndexLocked_log E _

theorem Node.addEntry_log (e : Entry) : (n.addEntry E e).1.log =
    bif (n.addEntry E e).2 then n.log.append e else n.log := by
  have hlog := (persistEntryLocked_logged E (n.log.lastIndex + 1) e n).log
  unfold Node.addEntry
  rcases hcase : n.persistEntryLocked E (n.log.lastIndex + 1) e with ⟨n₁, _ | _⟩
  · rw [hcase] at hlog
    exact hlog
  · rw [hcase] at hlog
    exact congrArg (Log.append · e) hlog

theorem Node.takeOffice_log (t : ℕ) : (n.takeOffice E t).1.log =
    bif (n.takeOffice E t).2 then n.log.append { term := t } else n.log := by
  unfold Node.takeOffice
  split
  · rfl
  dsimp only
  have hlog := (persistEntryLocked_logged E (n.log.lastIndex + 1) { term := t } n).log
  rcases hcase : n.persistEntryLocked E (n.log.lastIndex + 1) { term := t } with ⟨n₁, _ | _⟩
  · rw [hcase] at hlog
    exact hlog
  · rw [hcase] at hlog
    exact congrArg (Log.append · { term := t }) hlog

theorem Node.stores_submit {res : Except Error (Node σ × Entry)}
    (hres : ∀ n₁ e, res = .ok (n₁, e) → n₁.log = n.log) :
    n.Stores g m (n.own (Node.submitted E res)) (n.submit E res).1 := by
  unfold Node.submit Node.submitted
  rcases res with err | ⟨n₁, e⟩
  · exact Or.inl rfl
  have hlog := Node.addEntry_log (n := n₁) (E := E) e
  rw [hres n₁ e rfl] at hlog
  unfold Node.appendEntryLocked
  dsimp only
  rcases hcase : n₁.addEntry E e with ⟨n₂, _ | _⟩
  · rw [hcase] at hlog
    exact Or.inl hlog
  · rw [hcase] at hlog
    exact Node.stores_own hlog

theorem Node.stores_tryBecomeLeader (t : ℕ) :
    n.Stores g m (n.own (n.inaugural E t)) (n.tryBecomeLeader E t).1 := by
  have hlog := Node.takeOffice_log (n := n) (E := E) t
  unfold Node.tryBecomeLeader Node.inaugural
  by_cases hlead : n.role = .leader ∧ n.currentTerm = t
  · have hno : n.takeOffice E t = (n, false) :=
      if_pos (Or.inl (by rw [hlead.1]; decide))
    rw [if_pos hlead, hno]
    exact Or.inl rfl
  rw [if_neg hlead]
  rcases hcase : n.takeOffice E t with ⟨n₁, _ | _⟩
  · rw [hcase] at hlog
    exact Or.inl hlog
  · rw [hcase] at hlog
    exact Node.stores_own hlog

theorem Node.takeEntries_log (args : AppendEntries) :
    (n.appendLoop (args.prevLogIndex + 1) args.entries).log.After (n.takeEntries E args).log := by
  unfold Node.takeEntries
  dsimp only
  split
  · exact Node.applyLoop_log E _ { n.appendLoop (args.prevLogIndex + 1) args.entries with
      commitIndex := _ }
  · exact Node.applyLoop_log E _ _

theorem Node.stores_handleAppendEntries (args : AppendEntries) :
    n.Stores g m (if n.takes E args then (args.prevLogIndex + 1, args.entries) else (0, []))
      (n.handleAppendEntries E args).1 := by
  have hfollow := followLeader_talked args.term args.leaderID n
  unfold Node.takes
  rcases n.handleAppendEntries_accepts E args with ⟨hacc, ⟨-, heq⟩ | ⟨-, heq⟩⟩ | ⟨hacc, heq⟩
  · rw [hacc, heq]
    exact Or.inl rfl
  · rw [hacc, heq]
    exact hfollow.stores
  · have hlog := (persistLoop_logged E args.entries (args.prevLogIndex + 1)
      (n.followLeader args.term args.leaderID)).log
    rw [hacc, heq]
    rcases hcase : (n.followLeader args.term args.leaderID).persistLoop E (args.prevLogIndex + 1)
      args.entries with ⟨n₁, _ | _⟩
    all_goals rw [hcase, hfollow.log] at hlog
    · exact Or.inl hlog
    · unfold Node.Stores
      rw [← hlog, ← Node.appendLoop_log]
      exact Node.takeEntries_log args

theorem Node.stores_handleInstallSnapshot (args : InstallSnapshot) (hbase : n.log.base ≤ n.lastApplied) :
    n.Stores g m (0, []) (n.handleInstallSnapshot E args).1 := by
  have hfollow := followLeader_talked args.term args.leaderID n
  rcases n.handleInstallSnapshot_cases E args with ⟨-, heq⟩ | ⟨-, heq | ⟨hlt, _, _, _, heq, -⟩⟩
  · rw [heq]
    exact Or.inl rfl
  · rw [heq]
    exact hfollow.stores
  · rw [heq]
    refine Or.inr ?_
    rw [rebased_base]
    exact hbase.trans_lt hlt

/-- Of all logs only that of `r` is touched, and what `x` says is stored in it. -/
structure ClusterState.Touches (g : ℕ → ℕ → ℕ) (m : Arrays Entry) (r : String)
    (x : ℕ × List Entry) (s t : ClusterState σ) : Prop where
  others : ∀ q, q ≠ r → (t.node q).log = (s.node q).log
  actor : (s.node r).Stores g m x (t.node r)

namespace ClusterState

variable {t : ClusterState σ} {r : String} {x : ℕ × List Entry}

theorem Touches.setNode (h : (s.node r).Stores g m x n')
    (ht : t.node = (s.setNode r n').node) : Touches g m r x s t where
  others := fun q hq => by rw [ht, setNode_of_ne s n' hq]
  actor := by rwa [ht, setNode_self]

theorem Touches.same (ht : t.node = s.node) : Touches g m r (0, []) s t where
  others := fun q _ => by rw [ht]
  actor := Or.inl (by rw [ht]; rfl)

theorem Touches.takeReply (k j : ℕ) (c : Call) :
    Touches g m c.caller (0, []) s (s.takeReply E k j c) := by
  unfold ClusterState.takeReply
  split
  next e args replies _ =>
    cases replies[j]? with
    | none => exact Touches.same rfl
    | some reply =>
      refine Touches.setNode (Node.onVoteReply_talked args.term reply _).stores ?_
      dsimp only [voteReply]
      split <;> rfl
  next i args replies _ =>
    cases replies[j]? with
    | none => exact Touches.same rfl
    | some reply => exact Touches.setNode (Node.onHeartbeatReply_talked reply _).stores rfl
  next args replies _ =>
    cases replies[j]? with
    | none => exact Touches.same rfl
    | some reply =>
      exact Touches.setNode
        (Node.commitIf_log E (Node.hearAppend_talked c.callee args reply _).log) rfl
  next args replies _ =>
    cases replies[j]? with
    | none => exact Touches.same rfl
    | some reply =>
      exact Touches.setNode
        (Node.commitIf_log E (Node.hearSnapshot_talked c.callee args reply _).log) rfl

theorem Touches.serve (k : ℕ) (c : Call) (hc : s.calls[k]? = some c)
    (hbase : (s.node c.callee).log.base ≤ (s.node c.callee).lastApplied) :
    Touches g m c.callee (s.stores E (.serve k)) s (s.serve E k c) := by
  simp only [stores, hc]
  obtain ⟨caller, callee, rpc, waiting⟩ := c
  cases rpc with
  | vote i args replies => exact Touches.setNode (Node.handleRequestVote_talked args _).stores rfl
  | append i args replies => exact Touches.setNode (Node.stores_handleAppendEntries args) rfl
  | snapshot args replies =>
    exact Touches.setNode (Node.stores_handleInstallSnapshot args hbase) rfl

theorem Touches.submit {res : Except Error (Node σ × Entry)}
    (hres : ∀ n₁ e, res = .ok (n₁, e) → n₁.log = (s.node r).log)
    (ht : t.node = (s.setNode r ((s.node r).submit E res).1).node) :
    Touches g m r ((s.node r).own (Node.submitted E res)) s t :=
  Touches.setNode (Node.stores_submit hres) ht

theorem propose_node (command : Option Bytes) :
    (s.propose E r command).node = (s.setNode r ((s.node r).propose E command).1).node := by
  unfold ClusterState.propose
  rcases (s.node r).propose E command with ⟨n, err | i⟩ <;> rfl

theorem changeMembers_node (res : Node σ × Except Error ℕ) :
    (s.changeMembers r res).node = (s.setNode r res.1).node := by
  rcases res with ⟨n, err | i⟩ <;> rfl

/-- **Every action** stores in its actor's log what `stores` says, and touches no other log. -/
theorem Touches.perform (hbase : ∀ r, (s.node r).log.base ≤ (s.node r).lastApplied) (a : Action) :
    Touches g m (s.actor a) (s.stores E a) s (s.perform E K a) := by
  cases a with
  | timeout r => exact Touches.setNode (Node.becomeCandidate_talked _).stores rfl
  | promote e =>
    simp only [ClusterState.perform, ClusterState.actor, stores, written]
    cases s.elections[e]? with
    | none => exact Touches.same rfl
    | some el => exact Touches.setNode (Node.stores_tryBecomeLeader el.term) rfl
  | serve k =>
    cases hc : s.calls[k]? with
    | none =>
      simp only [ClusterState.perform, stores, hc]
      exact Touches.same rfl
    | some c =>
      simp only [ClusterState.perform, ClusterState.actor, hc]
      exact Touches.serve k c hc (hbase c.callee)
  | reply k j =>
    simp only [ClusterState.perform, ClusterState.actor, stores, written]
    cases s.calls[k]? with
    | none => exact Touches.same rfl
    | some c => exact Touches.takeReply k j c
  | propose r command =>
    refine Touches.submit (r := r) (fun n₁ e h => ?_) (propose_node command)
    exact congrArg (fun x : Node σ × Entry => x.1.log) (Node.proposed_ok h).2
  | addServer r id addr =>
    refine Touches.submit (r := r) (fun n₁ e h => ?_) (changeMembers_node _)
    obtain ⟨-, _, hx⟩ := Node.addition_ok h
    exact congrArg (fun x : Node σ × Entry => x.1.log) hx
  | removeServer r id =>
    refine Touches.submit (r := r) (fun n₁ e h => ?_) (changeMembers_node _)
    exact congrArg (fun x : Node σ × Entry => x.1.log) (Node.removal_ok h).2
  | resign j =>
    simp only [ClusterState.perform, ClusterState.actor, stores, written]
    cases s.resigning[j]? with
    | none => exact Touches.same rfl
    | some r => exact Touches.setNode (show (s.node r).Stores g m _ (s.node r).resign from Or.inl rfl) rfl
  | _ => exact Touches.same (perform_quiet rfl)

end ClusterState

end Steps

/-! ## 5. Calls go on -/

/-- The request of a call, without the replies. -/
def Rpc.request : Rpc → Rpc
  | .vote e args _ => .vote e args []
  | .append i args _ => .append i args []
  | .snapshot args _ => .snapshot args []

/-- Requests stay as they are, and nobody waits again. -/
structure Onward (cs cs' : List Call) : Prop where
  length_le : cs.length ≤ cs'.length
  request : ∀ (k : ℕ) (c' : Call), k < cs.length → cs'[k]? = some c' →
    ∃ c, cs[k]? = some c ∧ c'.rpc.request = c.rpc.request ∧ (c'.waiting = true → c.waiting = true)

section Calls

variable {E : Env σ} {K : Cluster σ} {s : ClusterState σ} {cs : List Call} {k : ℕ} {c : Call}

theorem Onward.refl (cs : List Call) : Onward cs cs := ⟨le_refl _, fun _ c' _ h => ⟨c', h, rfl, id⟩⟩

theorem Onward.append (cs new : List Call) : Onward cs (cs ++ new) where
  length_le := by rw [List.length_append]; exact Nat.le_add_right _ _
  request := fun _ c' hk h => by
    rw [List.getElem?_append_left hk] at h
    exact ⟨c', h, rfl, id⟩

theorem Onward.close (k : ℕ) : Onward s.calls (s.close k).calls where
  length_le := le_of_eq (List.length_modify ..).symm
  request := fun i c' _ h => by
    obtain ⟨c, hc, ⟨rfl, -⟩ | ⟨rfl, -⟩⟩ := getElem?_modify_cases h
    · exact ⟨c', hc, rfl, id⟩
    · exact ⟨c, hc, rfl, fun hw => by cases hw⟩

theorem Call.serve_request (c : Call) (n : Node σ) :
    (c.serve E n).2.rpc.request = c.rpc.request ∧ (c.serve E n).2.waiting = c.waiting := by
  obtain ⟨caller, callee, rpc, waiting⟩ := c
  cases rpc <;> exact ⟨rfl, rfl⟩

theorem Onward.serve (hc : s.calls[k]? = some c) : Onward s.calls (s.serve E k c).calls where
  length_le := le_of_eq (List.length_set ..).symm
  request := fun i c' _ h => by
    change (s.calls.set k (c.serve E (s.node c.callee)).2)[i]? = some c' at h
    rw [List.getElem?_set] at h
    split at h
    next hik =>
      split at h
      · cases h
        obtain ⟨hreq, hwait⟩ := c.serve_request (E := E) (s.node c.callee)
        exact ⟨c, hik ▸ hc, hreq, fun hw => hwait ▸ hw⟩
      · cases h
    · exact ⟨c', h, rfl, id⟩

theorem Onward.takeReply (j : ℕ) : Onward s.calls (s.takeReply E k j c).calls := by
  unfold ClusterState.takeReply
  split
  · split
    · exact Onward.refl _
    · unfold ClusterState.voteReply
      dsimp only
      split <;> exact Onward.close k
  all_goals
    split
    · exact Onward.refl _
    · exact Onward.close k

theorem Onward.perform (a : Action) : Onward s.calls (s.perform E K a).calls := by
  cases a with
  | campaign r => exact Onward.append _ _
  | serve k =>
    cases hc : s.calls[k]? with
    | none => simpa only [ClusterState.perform, hc] using Onward.refl _
    | some c => simpa only [ClusterState.perform, hc] using Onward.serve hc
  | reply k j =>
    simp only [ClusterState.perform]
    split
    · exact Onward.takeReply j
    · exact Onward.refl _
  | fail k =>
    simp only [ClusterState.perform, ClusterState.fail]
    split
    · split <;> exact Onward.close k
    · exact Onward.refl _
  | replicate j =>
    simp only [ClusterState.perform, ClusterState.replicate]
    split
    · split
      · exact Onward.refl _
      · exact Onward.refl _
      · exact Onward.append _ _
    · exact Onward.refl _
  | snapshot j =>
    simp only [ClusterState.perform, ClusterState.snapshot]
    split
    · split
      · exact Onward.refl _
      · exact Onward.append _ _
    · exact Onward.refl _
  | fanOut c =>
    simp only [ClusterState.perform]
    split
    · exact Onward.append _ _
    · exact Onward.refl _
  | timeout r => exact Onward.refl _
  | promote e =>
    simp only [ClusterState.perform]
    split <;> exact Onward.refl _
  | resign j =>
    simp only [ClusterState.perform]
    split <;> exact Onward.refl _
  | propose r command =>
    simp only [ClusterState.perform, ClusterState.propose]
    split <;> exact Onward.refl _
  | addServer r id addr =>
    simp only [ClusterState.perform, ClusterState.changeMembers]
    split <;> exact Onward.refl _
  | removeServer r id =>
    simp only [ClusterState.perform, ClusterState.changeMembers]
    split <;> exact Onward.refl _
  | _ =>
    rw [(ClusterState.perform_aside rfl).2]
    exact Onward.refl _

end Calls

/-! ## 6. A run that disturbs no draft is a run of the cluster

The cluster posts a request when the lock is released; the machine with arrays serves it only when
it has been read.  As long as the window a draft still has to read shows the entries of the posted
request, reading them changes nothing, and the machine does what the cluster could have done. -/

/-- The draft's request is still the one that was posted: what was read and what is left to read
are its entries, and the log has not been cut inside what is left. -/
structure DraftInv (s : SharedState σ) (d : Draft) : Prop where
  posted : ∃ c args, s.cluster.calls[d.call]? = some c ∧ c.rpc.request = .append none args [] ∧
    args.entries = d.read ++ (s.arrays d.owner).window d.rest ∧
    args.entries.length = d.read.length + d.rest.len
  before : (s.arrays d.owner).Before (s.cluster.node d.owner).log.entries.length d.rest
  unread : 0 < d.rest.len

structure SharedInv (s : SharedState σ) : Prop where
  shows : ∀ r, (s.arrays r).Shows (s.cluster.node r).log.entries
  numbered : ∀ d ∈ s.drafts, d.call < s.cluster.calls.length
  drafts : ∀ d ∈ s.drafts, s.live d = true → DraftInv s d

section Projection

variable {E : Env σ} {K : Cluster σ} {g : ℕ → ℕ → ℕ} {s : SharedState σ} {l : Label} {k : ℕ}
  {d : Draft}

theorem SharedInv.start (K : Cluster σ) : SharedInv K.shared where
  shows := fun _ => Arrays.shows_single _
  numbered := fun _ h => by cases h
  drafts := fun _ h => by cases h

theorem Log.Stored.rehouse {p : ℕ} {old new : Log} {m : Arrays Entry} {x : Log × Arrays Entry}
    (h : Log.Stored p (old, m) x) (hshow : m.Shows old.entries) (hafter : x.1.After new) :
    (Log.rehouse g old new x.2).Shows new.entries ∧
    ∀ w, m.Before p w → (Log.rehouse g old new x.2).Before new.entries.length w ∧
      (Log.rehouse g old new x.2).window w = m.window w := by
  have hbase := h.base
  dsimp only at hbase
  unfold Log.rehouse
  rcases hafter with rfl | hlt
  · rw [if_pos hbase]
    exact ⟨h.shows hshow, fun w hw => ⟨(h.before w hw).1.mono h.length, (h.before w hw).2⟩⟩
  · rw [if_neg (by omega)]
    refine ⟨Arrays.shows_move _ _ _, fun w hw => ?_⟩
    obtain ⟨hx, hwin⟩ := h.before w hw
    exact ⟨Arrays.before_move hx.arr_le, (Arrays.window_move hx.arr_le).trans hwin⟩

theorem arm_log (s : ClusterState σ) (l : Label) (q : String) :
    ((s.arm l).node q).log = (s.node q).log ∧
      ((s.arm l).node q).lastApplied = (s.node q).lastApplied := by
  obtain ⟨_, _, heq⟩ := arm_node s l q
  rw [heq]
  exact ⟨rfl, rfl⟩

theorem act_eq (hcrash : l.crash = false) (s : ClusterState σ) :
    s.act E K l = (s.arm l).perform E K l.action := by
  unfold ClusterState.act
  rw [if_neg (by rw [hcrash]; decide)]

/-- A draft that the step does not disturb lies before everything the step writes. -/
theorem DraftInv.spared (h : DraftInv s d) (hmem : d ∈ s.drafts) (hlive : s.live d = true)
    (hund : s.Undisturbed E (.step l)) (howner : d.owner = s.cluster.actor l.action) :
    (s.arrays d.owner).Before ((s.cluster.node d.owner).log.spared
      ((s.cluster.arm l).stores E l.action)) d.rest := by
  rcases h.before with hold | ⟨harr, hend⟩
  · exact Or.inl hold
  refine Or.inr ⟨harr, ?_⟩
  unfold SharedState.Undisturbed at hund
  dsimp only at hund
  rw [actor_arm, (arm_log s.cluster l _).1, ← howner] at hund
  unfold Log.spared
  split
  next cut hcut => exact hund cut hcut d hmem rfl hlive harr
  next => exact hend

theorem replicateTo_entries {n : Node σ} {peer : String} {args : AppendEntries}
    (h : n.replicateTo peer = .append args) :
    args.entries = n.log.entries.drop (args.prevLogIndex + 1 - n.log.base) := by
  unfold Node.replicateTo at h
  split at h
  · cases h
  dsimp only at h
  split at h
  · cases h
  next hnext =>
  cases h
  change n.log.entries.drop _ = _
  rw [Nat.sub_add_cancel (Nat.one_le_iff_ne_zero.mpr fun hzero => hnext (by omega))]

theorem SharedState.mem_drafted {a : Action} (h : d ∈ s.drafted a) : ∃ j r peer args,
    a = .replicate j ∧ s.cluster.spawned[j]? = some (r, peer) ∧
    (s.cluster.node r).replicateTo peer = .append args ∧ args.entries ≠ [] ∧
    d = { owner := r, call := s.cluster.calls.length
          rest := { arr := (s.arrays r).current
                    pos := args.prevLogIndex + 1 - (s.cluster.node r).log.base
                    len := args.entries.length } } := by
  unfold SharedState.drafted at h
  split at h
  next j =>
    split at h
    next r peer hget =>
      split at h
      next args hargs =>
        split at h
        · cases h
        next hne => exact ⟨j, r, peer, args, rfl, hget, hargs, hne, List.mem_singleton.mp h⟩
      · cases h
    · cases h
  · cases h

variable (hbase : ∀ r, (s.cluster.node r).log.base ≤ (s.cluster.node r).lastApplied)

include hbase

/-- **One step** on the arrays: each shows its log, and every window that the step does not
disturb. -/
theorem SharedInv.arrays_step (h : SharedInv s) (hcrash : l.crash = false) (q : String) :
    ((s.step E K g l).arrays q).Shows ((s.step E K g l).cluster.node q).log.entries ∧
    ∀ w, (s.arrays q).Before (s.cluster.node q).log.entries.length w →
      (q = s.cluster.actor l.action → (s.arrays q).Before
        ((s.cluster.node q).log.spared ((s.cluster.arm l).stores E l.action)) w) →
      ((s.step E K g l).arrays q).Before
        ((s.step E K g l).cluster.node q).log.entries.length w ∧
      ((s.step E K g l).arrays q).window w = (s.arrays q).window w := by
  have hlog := fun q => (arm_log s.cluster l q).1
  have htouch := ClusterState.Touches.perform (g := g)
    (m := s.arrays ((s.cluster.arm l).actor l.action)) (E := E) (K := K) (s := s.cluster.arm l)
    (fun r => by rw [hlog, (arm_log s.cluster l r).2]; exact hbase r) l.action
  unfold SharedState.step
  dsimp only
  rw [act_eq hcrash]
  by_cases hq : q = s.cluster.actor l.action
  · subst hq
    rw [if_pos rfl]
    have hstored := Log.Stored.spared (g := g)
      ((s.cluster.arm l).node ((s.cluster.arm l).actor l.action)).log
      (s.arrays ((s.cluster.arm l).actor l.action)) ((s.cluster.arm l).stores E l.action)
    have hspec := hstored.rehouse (g := g)
      (by rw [hlog, actor_arm]; exact h.shows _) htouch.actor
    unfold SharedState.touched
    dsimp only
    rw [actor_arm, hlog] at hspec ⊢
    exact ⟨hspec.1, fun w _ hw => hspec.2 w (hw rfl)⟩
  · rw [if_neg hq, htouch.others q (by rwa [actor_arm]), hlog]
    exact ⟨h.shows q, fun w hw _ => ⟨hw, rfl⟩⟩

theorem DraftInv.step (hinv : SharedInv s) (h : DraftInv s d) (hmem : d ∈ s.drafts)
    (hlive : s.live d = true) (hcrash : l.crash = false) (hund : s.Undisturbed E (.step l)) :
    ∀ c', (s.step E K g l).cluster.calls[d.call]? = some c' →
      DraftInv (s.step E K g l) d := by
  intro c' hc'
  obtain ⟨-, hwin⟩ := hinv.arrays_step hbase (E := E) (K := K) (g := g) hcrash d.owner
  obtain ⟨hbefore, hsame⟩ := hwin d.rest h.before fun howner => h.spared hmem hlive hund howner
  obtain ⟨c, args, hc, hreq, hread, hlen⟩ := h.posted
  have hcalls := (Onward.perform (E := E) (K := K) (s := s.cluster.arm l) l.action).request d.call
    c' (hinv.numbered d hmem) (by rw [← act_eq hcrash]; exact hc')
  obtain ⟨c₁, hc₁, hreq₁, -⟩ := hcalls
  obtain rfl : c = c₁ := Option.some.inj (hc.symm.trans hc₁)
  exact ⟨⟨c', args, hc', hreq₁.trans hreq, by rw [hread, hsame], hlen⟩, hbefore, h.unread⟩

theorem DraftInv.drafted (hinv : SharedInv s) (hcrash : l.crash = false)
    (hmem : d ∈ s.drafted l.action) :
    d.call < (s.step E K g l).cluster.calls.length ∧ DraftInv (s.step E K g l) d := by
  obtain ⟨j, r, peer, args, ha, hget, hargs, hne, rfl⟩ := SharedState.mem_drafted hmem
  have hactor : s.cluster.actor l.action = r := by
    rw [ha]
    simp [ClusterState.actor, hget]
  have hrep : ((s.cluster.arm l).node r).replicateTo peer = .append args := by
    obtain ⟨_, _, heq⟩ := arm_node s.cluster l r
    rw [heq]
    exact hargs
  have hcalls : (s.step E K g l).cluster.calls = s.cluster.calls ++
      [{ caller := r, callee := peer, rpc := .append none args [] }] := by
    change (s.cluster.act E K l).calls = _
    rw [act_eq hcrash, ha]
    have hget' : (s.cluster.arm l).spawned[j]? = some (r, peer) := hget
    simp only [ClusterState.perform, hget', ClusterState.replicate, hrep]
    rfl
  -- the entries are those of the log from the next index on
  have hentries := replicateTo_entries hargs
  set pos := args.prevLogIndex + 1 - (s.cluster.node r).log.base with hpos
  have hpos_le : pos ≤ (s.cluster.node r).log.entries.length := by
    by_contra hover
    exact hne (by rw [hentries, List.drop_eq_nil_of_le (not_le.mp hover).le])
  have hlen : args.entries.length = (s.cluster.node r).log.entries.length - pos := by
    rw [hentries, List.length_drop]
  have hwin : (s.arrays r).window ⟨(s.arrays r).current, pos, args.entries.length⟩ =
      args.entries := by
    rw [hentries]
    exact (hinv.shows r).window hpos_le
  have hbefore : (s.arrays r).Before (s.cluster.node r).log.entries.length
      ⟨(s.arrays r).current, pos, args.entries.length⟩ :=
    Or.inr ⟨rfl, by dsimp only; omega⟩
  -- `replicateTo` stores nothing
  obtain ⟨hbefore', hsame⟩ := (hinv.arrays_step hbase (E := E) (K := K) (g := g) hcrash
    r).2 _ hbefore fun _ => by rw [ha]; exact hbefore
  refine ⟨?_, ⟨⟨{ caller := r, callee := peer, rpc := .append none args [] }, args, ?_, rfl, ?_, ?_⟩,
    hbefore', ?_⟩⟩
  · rw [hcalls, List.length_append]
    exact Nat.lt_succ_self _
  · rw [hcalls]
    exact List.getElem?_concat_length
  · rw [List.nil_append, hsame, hwin]
  · exact (Nat.zero_add _).symm
  · exact List.length_pos_of_ne_nil hne

/-- **A step of the cluster** that disturbs no draft keeps the invariant. -/
theorem SharedInv.step (h : SharedInv s) (hcrash : l.crash = false)
    (hund : s.Undisturbed E (.step l)) : SharedInv (s.step E K g l) := by
  have hon : Onward s.cluster.calls (s.step E K g l).cluster.calls := by
    change Onward _ (s.cluster.act E K l).calls
    rw [act_eq hcrash]
    exact Onward.perform (s := s.cluster.arm l) l.action
  refine ⟨fun q => (h.arrays_step hbase hcrash q).1, fun d hd => ?_, fun d hd hlive => ?_⟩
  · rcases List.mem_append.mp hd with hold | hnew
    · exact (h.numbered d hold).trans_le hon.length_le
    · exact (DraftInv.drafted hbase h hcrash hnew).1
  · rcases List.mem_append.mp hd with hold | hnew
    · obtain ⟨c', hc', hw'⟩ := exists_of_any hlive
      obtain ⟨c, hc, -, hw⟩ := hon.request d.call c' (h.numbered d hold) hc'
      have hlive₀ : s.live d = true := by
        unfold SharedState.live
        rw [hc]
        exact hw hw'
      exact (h.drafts d hold hlive₀).step hbase h hold hlive₀ hcrash hund c' hc'
    · exact (DraftInv.drafted hbase h hcrash hnew).2

omit hbase

theorem modify_carrying {cs : List Call} {c : Call} {args : AppendEntries} (hc : cs[k]? = some c)
    (hreq : c.rpc.request = .append none args []) :
    cs.modify k (Call.carrying args.entries) = cs := by
  have hcarry : c.carrying args.entries = c := by
    obtain ⟨caller, callee, rpc, waiting⟩ := c
    cases rpc with
    | append i args' replies =>
      cases hreq
      rfl
    | vote e args' replies => cases hreq
    | snapshot args' replies => cases hreq
  refine List.ext_getElem? fun i => ?_
  rw [List.getElem?_modify]
  split
  next hki =>
    subst hki
    rw [hc]
    exact congrArg some hcarry
  next => exact Option.map_id' ..

/-- **The transport reads an entry**: it is the one that was posted, and the cluster does not
change. -/
theorem SharedInv.readNext (h : SharedInv s) (hd : s.drafts[k]? = some d)
    (hlive : s.live d = true) :
    SharedInv (s.readNext k d) ∧ (s.readNext k d).cluster = s.cluster := by
  have hmem := List.mem_of_getElem? hd
  obtain ⟨⟨c, args, hc, hreq, hread, hlen⟩, hbefore, hunread⟩ := h.drafts d hmem hlive
  obtain ⟨n, hn⟩ : ∃ n, d.rest.len = n + 1 := ⟨d.rest.len - 1, by omega⟩
  have hwlen : ((s.arrays d.owner).window d.rest).length = d.rest.len := by
    have := congrArg List.length hread
    rw [List.length_append] at this
    omega
  have hcons := Arrays.window_cons hn hwlen
  rw [hcons] at hread
  unfold SharedState.readNext
  dsimp only
  rw [hn, Nat.add_sub_cancel]
  split
  next hlast =>
    -- the last one: the request goes out as it was posted
    have hcalls := modify_carrying hc hreq
    rw [hlast, Arrays.window_nil] at hread
    rw [hread] at hcalls
    rw [hcalls]
    refine ⟨⟨h.shows, fun d' hd' => h.numbered d' (List.mem_of_mem_eraseIdx hd'),
      fun d' hd' hl' => ?_⟩, rfl⟩
    obtain ⟨hposted', hbefore', hunread'⟩ := h.drafts d' (List.mem_of_mem_eraseIdx hd') hl'
    exact ⟨hposted', hbefore', hunread'⟩
  next hmore =>
    refine ⟨⟨h.shows, fun d' hd' => ?_, fun d' hd' hl' => ?_⟩, rfl⟩
    · rcases List.mem_or_eq_of_mem_set hd' with hold | rfl
      · exact h.numbered d' hold
      · exact h.numbered d hmem
    · rcases List.mem_or_eq_of_mem_set hd' with hold | rfl
      · obtain ⟨hposted', hbefore', hunread'⟩ := h.drafts d' hold hl'
        exact ⟨hposted', hbefore', hunread'⟩
      · refine ⟨⟨c, args, hc, hreq, ?_, ?_⟩, ?_, Nat.pos_of_ne_zero hmore⟩
        · rw [hread, List.append_assoc]
          rfl
        · rw [List.length_append, List.length_singleton]
          dsimp only
          omega
        · rcases hbefore with hold | ⟨harr, hend⟩
          · exact Or.inl hold
          · exact Or.inr ⟨harr, by dsimp only; omega⟩

/-- **One step** of the machine: the cluster moves on by a step of its own, or not at all. -/
theorem SharedInv.act {a : SharedLabel} (h : SharedInv s)
    (hbase : ∀ r, (s.cluster.node r).log.base ≤ (s.cluster.node r).lastApplied)
    (hen : s.Enabled E K a) (hund : s.Undisturbed E a) :
    SharedInv (s.act E K g a) ∧
      match a with
      | .step l => s.cluster.Enabled E K l ∧ l.crash = false ∧
          (s.act E K g a).cluster = s.cluster.act E K l
      | .read _ => (s.act E K g a).cluster = s.cluster := by
  cases a with
  | step l =>
    obtain ⟨hl, hcrash, -⟩ := hen
    exact ⟨h.step hbase hcrash hund, hl, hcrash, rfl⟩
  | read k =>
    obtain ⟨d, hd, hlive⟩ := exists_of_any hen
    simp only [SharedState.act, hd]
    exact h.readNext hd hlive

end Projection

/-! ## 7. Safety of undisturbed runs -/

/-- The machine of a cluster with fixed voters, in runs that disturb no draft. -/
def SharedState.undisturbed (E : Env σ) (K : Cluster σ) (g : ℕ → ℕ → ℕ) :
    Machine (SharedState σ) SharedLabel :=
  (SharedState.calm E K g).restrict fun s l => s.Undisturbed E l

instance (E : Env σ) (K : Cluster σ) (g : ℕ → ℕ → ℕ) (s : SharedState σ) (l : SharedLabel) :
    Decidable ((SharedState.undisturbed E K g).enabled s l) :=
  inferInstanceAs (Decidable ((SharedState.calm E K g).enabled s l ∧ _))

section Safety

variable {E : Env σ} {K : Cluster σ} {g : ℕ → ℕ → ℕ} {s s' : SharedState σ}

/-- **A run that disturbs no draft is a run of the cluster** whose requests are copies. -/
theorem SharedInv.project (hK : K.Fixed) (h : SharedInv s)
    (hs : (ClusterState.calm E K).Steps K.start s.cluster)
    (hrun : (SharedState.undisturbed E K g).Steps s s') :
    SharedInv s' ∧ (ClusterState.calm E K).Steps s.cluster s'.cluster := by
  refine hrun.invariant (P := fun t => SharedInv t ∧ (ClusterState.calm E K).Steps s.cluster t.cluster)
    (fun t a hinv hen => ?_) ⟨h, Machine.Steps.refl _⟩
  obtain ⟨ht, hsteps⟩ := hinv
  obtain ⟨⟨hen, hset⟩, hund⟩ := hen
  obtain ⟨S, hcluster, -⟩ := Inv.start.run hK (hs.trans hsteps)
  obtain ⟨hnext, hstep⟩ := ht.act (g := g) (fun r => (hcluster.nodes r).sound.base_le)
    hen hund
  refine ⟨hnext, ?_⟩
  cases a with
  | step l =>
    obtain ⟨hl, hcrash, heq⟩ := hstep
    exact hsteps.tail ⟨l, ⟨hl, hcrash, hset⟩, heq⟩
  | read k => exact (congrArg _ hstep).mpr hsteps

theorem SharedState.undisturbed_calm (hK : K.Fixed)
    (h : (undisturbed E K g).Steps K.shared s) :
    SharedInv s ∧ (ClusterState.calm E K).Steps K.start s.cluster :=
  (SharedInv.start K).project hK (Machine.Steps.refl _) h

/-- **State machine safety.**  In every run that disturbs no draft, from every state of it to every
later one: entries applied at one index are equal on all servers; commit index and apply position
do not decrease; and every cut `HandleAppendEntries` has made in a log was above the commit
index. -/
theorem state_machine_safety (E : Env σ) (K : Cluster σ) (hK : K.Fixed) (g : ℕ → ℕ → ℕ)
    {s s' : SharedState σ} (h : (SharedState.undisturbed E K g).Steps K.shared s)
    (h' : (SharedState.undisturbed E K g).Steps s s') :
    (∀ p ∈ K.servers, ∀ q ∈ K.servers, ∀ i e e', (i, e) ∈ (s'.cluster.node p).applied →
      (i, e') ∈ (s'.cluster.node q).applied → e = e') ∧
    (∀ r ∈ K.servers, (s.cluster.node r).commitIndex ≤ (s'.cluster.node r).commitIndex ∧
      (s.cluster.node r).lastApplied ≤ (s'.cluster.node r).lastApplied) ∧
    ∀ r ∈ K.servers, ∀ cut ∈ (s'.cluster.node r).truncated, cut.2 < cut.1 := by
  obtain ⟨hinv, hs⟩ := SharedState.undisturbed_calm hK h
  exact calm_agreement hK hs (hinv.project hK hs h').2

/-- **Log matching.**  In every state of every run that disturbs no draft, logs that carry the same
term at an index are the same up to there, above both bases. -/
theorem log_matching (E : Env σ) (K : Cluster σ) (hK : K.Fixed) (g : ℕ → ℕ → ℕ)
    {s : SharedState σ} (h : (SharedState.undisturbed E K g).Steps K.shared s) :
    s.cluster.Matching :=
  calm_matching hK (SharedState.undisturbed_calm hK h).2

/-- **Leader completeness.**  In every run that disturbs no draft a leader's log holds, above both
bases, what a server of no later term has committed. -/
theorem leader_holds (hK : K.Fixed) (h : (SharedState.undisturbed E K g).Steps K.shared s)
    {p q : String} {k : ℕ} (hp : (s.cluster.node p).role = .leader)
    (hterm : (s.cluster.node q).currentTerm ≤ (s.cluster.node p).currentTerm)
    (hk : k ≤ (s.cluster.node q).commitIndex) :
    k ≤ (s.cluster.node p).log.lastIndex ∧
      (max (s.cluster.node p).log.base (s.cluster.node q).log.base < k →
        (s.cluster.node p).log.entryAt k = (s.cluster.node q).log.entryAt k) :=
  calm_leader_holds hK (SharedState.undisturbed_calm hK h).2 hp hterm hk

end Safety

/-! ## 8. A draft overtaken by two leaders

Five voters.  `a` leads term 1 and has written `x` and `y`; its request to `c` is a draft.  `d` is
elected in term 2 by `b` and `e`, whose logs are empty, and writes `p` and `q`.  Its request makes
`a` replace all three entries, in the array the draft is reading from.  What `c` gets is the
no-op of term 1, `x`, and `q` of term 2. -/

def five : Cluster Unit := { trio with
  servers := ["a", "b", "c", "d", "e"]
  voters := ["a", "b", "c", "d", "e"]
  nodup := by decide
  named := by decide }

theorem five_fixed : five.Fixed := fun _ hr => hr

/-- An array of small entries doubles when it is full. -/
def doubling (cap need : ℕ) : ℕ := 2 * cap - need

def SharedLabel.act (a : Action) (_ : SharedState Unit) : SharedLabel := .step { action := a }

def SharedLabel.next (d : ℕ) (_ : SharedState Unit) : SharedLabel := .read d

/-- `a` is elected by `b` and `e`, writes `x` and `y`, and starts a request to `c`. -/
def draftA : List (SharedState Unit → SharedLabel) :=
  [.timeout "a", .campaign "a", .serve 0, .reply 0 0, .serve 3, .reply 3 0, .promote 0,
    .propose "a" (some [1]), .propose "a" (some [2]), .broadcast 0, .replicate 1].map
      SharedLabel.act

/-- `d` is elected by `b` and `e`, and writes `p` and `q`. -/
def electD : List (SharedState Unit → SharedLabel) :=
  [.serve 2, .timeout "d", .campaign "d", .serve 6, .reply 6 0, .serve 8, .reply 8 0, .promote 1,
    .propose "d" (some [3]), .propose "d" (some [4]), .broadcast 2, .replicate 3].map
      SharedLabel.act

/-- The transport of `a` has read two entries when `d`'s request reaches `a`, and then reads the
third. -/
def overtaken : List (SharedState Unit → SharedLabel) :=
  draftA ++ List.replicate 2 (SharedLabel.next 0) ++ electD ++
    List.replicate 3 (SharedLabel.next 1) ++
    [SharedLabel.act (.serve 9), SharedLabel.next 0, SharedLabel.act (.serve 4)]

/-- The same with a faster transport. -/
def inTime : List (SharedState Unit → SharedLabel) :=
  draftA ++ List.replicate 3 (SharedLabel.next 0) ++ electD ++
    List.replicate 3 (SharedLabel.next 0) ++ [.serve 9, .serve 4].map SharedLabel.act

/-- `d` commits in term 2 with `b` and `e`. -/
def commitD : List (SharedState Unit → SharedLabel) :=
  [SharedLabel.act (.replicate 3)] ++ List.replicate 3 (SharedLabel.next 0) ++
    [.serve 10, .reply 10 0, .replicate 4].map SharedLabel.act ++
    List.replicate 3 (SharedLabel.next 0) ++ [.serve 11, .reply 11 0].map SharedLabel.act

/-- `b` hears of it. -/
def hearB : List (SharedState Unit → SharedLabel) :=
  [.broadcast 2, .replicate 5, .serve 12].map SharedLabel.act

/-- `c` is elected in term 3 by `b` and `e`, and commits with them. -/
def commitC : List (SharedState Unit → SharedLabel) :=
  [.serve 7, .timeout "c", .campaign "c", .serve 13, .reply 13 0, .serve 15, .reply 15 0,
    .promote 2, .broadcast 4, .replicate 5].map SharedLabel.act ++
    [SharedLabel.next 0, .act (.serve 16), .act (.reply 16 0), .act (.replicate 6), .next 0,
      .act (.serve 17), .act (.reply 17 0)]

def afterOvertaking : SharedState Unit :=
  (SharedState.calm plainEnv five doubling).play five.shared overtaken

def afterTermThree : SharedState Unit :=
  (SharedState.calm plainEnv five doubling).play afterOvertaking (commitD ++ commitC)

/-- `d` and `a` have cut and matched logs; `c` has what `a` sent it in term 1. -/
def afterInTime : SharedState Unit :=
  (SharedState.undisturbed plainEnv five doubling).play five.shared inTime

def afterCommitD : SharedState Unit :=
  (SharedState.undisturbed plainEnv five doubling).play afterInTime commitD

def afterHeard : SharedState Unit :=
  (SharedState.undisturbed plainEnv five doubling).play afterCommitD hearB

/-- `a` has been cut back to nothing, and what `d` has applied is all that was applied. -/
theorem state_machine_safety_inTime :
    ((2, { term := 2, command := some [3] }) ∈ (afterCommitD.cluster.node "d").applied ∧
      (1, 0) ∈ (afterCommitD.cluster.node "a").truncated) ∧
    (∀ p ∈ five.servers, ∀ q ∈ five.servers, ∀ i e e',
      (i, e) ∈ (afterCommitD.cluster.node p).applied →
      (i, e') ∈ (afterCommitD.cluster.node q).applied → e = e') ∧
    (∀ r ∈ five.servers,
      (afterInTime.cluster.node r).commitIndex ≤ (afterCommitD.cluster.node r).commitIndex ∧
      (afterInTime.cluster.node r).lastApplied ≤ (afterCommitD.cluster.node r).lastApplied) ∧
    ∀ r ∈ five.servers, ∀ cut ∈ (afterCommitD.cluster.node r).truncated, cut.2 < cut.1 :=
  ⟨by decide +kernel,
    state_machine_safety plainEnv five five_fixed doubling
      (Machine.steps_of_plays inTime five.shared (by decide +kernel))
      (Machine.steps_of_plays commitD afterInTime (by decide +kernel))⟩

/-- `c` leads term 3, and has applied `x` where `d` has applied `p`. -/
theorem state_machine_safety_fails :
    ((SharedState.calm plainEnv five doubling).Steps five.shared afterOvertaking ∧
      (SharedState.calm plainEnv five doubling).Steps afterOvertaking afterTermThree) ∧
    (2, { term := 1, command := some [1] }) ∈ (afterTermThree.cluster.node "c").applied ∧
    (2, { term := 2, command := some [3] }) ∈ (afterTermThree.cluster.node "d").applied :=
  ⟨⟨Machine.steps_of_plays overtaken five.shared (by decide +kernel),
    Machine.steps_of_plays (commitD ++ commitC) afterOvertaking (by decide +kernel)⟩,
    by decide +kernel⟩

/-- `a` holds what `d` sent, `c` what `a` had sent before. -/
theorem log_matching_inTime :
    ((afterInTime.cluster.node "a").log.termAt 3 = 2 ∧
      (afterInTime.cluster.node "c").log.termAt 3 = 1) ∧ afterInTime.cluster.Matching :=
  ⟨by decide +kernel, log_matching plainEnv five five_fixed doubling
    (Machine.steps_of_plays inTime five.shared (by decide +kernel))⟩

/-- `c` and `d` both have `q` of term 2 at index 3, and nothing in common before it. -/
theorem log_matching_fails :
    (SharedState.calm plainEnv five doubling).Steps five.shared afterOvertaking ∧
    ¬ afterOvertaking.cluster.Matching := by
  refine ⟨Machine.steps_of_plays overtaken five.shared (by decide +kernel), fun h => ?_⟩
  have hmatch := (h "c" "d" 3 (by decide +kernel) (by decide +kernel) (by decide +kernel)
    (by decide +kernel) (by decide +kernel)).1 2 (by decide +kernel) (by decide)
  exact absurd hmatch (by decide +kernel)

theorem heard_steps : (SharedState.undisturbed plainEnv five doubling).Steps five.shared afterHeard :=
  ((Machine.steps_of_plays inTime five.shared (by decide +kernel)).trans
    (Machine.steps_of_plays commitD afterInTime (by decide +kernel))).trans
    (Machine.steps_of_plays hearB afterCommitD (by decide +kernel))

/-- `b` has learnt what `d` has committed, and `d` holds it. -/
theorem leader_holds_inTime :
    ((afterHeard.cluster.node "d").role = .leader ∧ (afterHeard.cluster.node "b").commitIndex = 3) ∧
    (afterHeard.cluster.node "d").log.entryAt 2 = (afterHeard.cluster.node "b").log.entryAt 2 :=
  ⟨by decide +kernel, (leader_holds five_fixed heard_steps (p := "d") (q := "b") (k := 2)
    (by decide +kernel) (by decide +kernel) (by decide +kernel)).2 (by decide +kernel)⟩

end Cachey.Raft
