/-
# A leader whose log store refuses an entry

`Propose`, `AddServer`, `RemoveServer` and `tryBecomeLeader` each hand ONE entry to the log store
before they touch the log.  If the store refuses it they report the failure, and the caller may
call again.

* `submit_refused`, `tryBecomeLeader_refused`: what is left of a refused call.  Three of the four
  leave the node as it was, up to the outcome that was used up and, if the write arrived after all,
  its record in the write-ahead log.
* `AddServer` is the fourth: it has ENLISTED the newcomer before it calls `appendEntryLocked`, and
  nothing takes that back.  The same call is then answered "already a member".
* `run_withWal`: no call reads the write-ahead log, so a stray record is seen by nobody before the
  next start.
* `refused_unchanged_iff`: a refused call is as if it had never been made exactly when it is not an
  `AddServer`.
-/
import Cachey.Raft.Node

namespace Cachey.Raft

open Wal (Record)

variable {σ : Type} {E : Env σ} {n : Node σ}

/-! ## 1. The four calls -/

/-- The calls that hand an entry of their own to the log store. -/
inductive Submission where
  | propose (command : Option Bytes)
  | addServer (id addr : String)
  | removeServer (id : String)
  | tryBecomeLeader (term : ℕ)
deriving DecidableEq

/-- What a call returns. -/
inductive Answer where
  | index (result : Except Error ℕ)
  | leads (won : Bool)
deriving DecidableEq

namespace Submission

def isAddServer : Submission → Bool
  | .addServer _ _ => true
  | _ => false

def run (E : Env σ) (n : Node σ) : Submission → Node σ × Answer
  | .propose command => ((n.propose E command).1, .index (n.propose E command).2)
  | .addServer id addr => ((n.addServer E id addr).1, .index (n.addServer E id addr).2)
  | .removeServer id => ((n.removeServer E id).1, .index (n.removeServer E id).2)
  | .tryBecomeLeader term => ((n.tryBecomeLeader E term).1, .leads (n.tryBecomeLeader E term).2)

/-- The entry the call hands to the log store; a call that ends before has none. -/
def entry (n : Node σ) : Submission → Option Entry
  | .propose command => (n.proposed command).toOption.map Prod.snd
  | .addServer id addr => (n.addition id addr).toOption.map Prod.snd
  | .removeServer id => (n.removal id).toOption.map Prod.snd
  | .tryBecomeLeader term =>
    if n.role = .candidate ∧ n.currentTerm = term then some { term := term } else none

end Submission

namespace Node

/-- The log store refuses the entry: it cannot be written, or its write is not acknowledged. -/
def Refuses (E : Env σ) (n : Node σ) (e : Entry) : Prop :=
  n.logStore = true ∧ (record E (n.log.lastIndex + 1) e = none ∨ n.writes.headD .ok ≠ .ok)

/-- Everything the failed call must not have touched. -/
structure Unchanged (n n' : Node σ) : Prop where
  log : n'.log = n.log
  role : n'.role = n.role
  commitIndex : n'.commitIndex = n.commitIndex
  lastApplied : n'.lastApplied = n.lastApplied
  peers : n'.peers = n.peers
  removed : n'.removed = n.removed
  joining : n'.joining = n.joining
  nextIndex : n'.nextIndex = n.nextIndex
  matchIndex : n'.matchIndex = n.matchIndex

def withWal (w : List Record) (n : Node σ) : Node σ := { n with wal := w }

/-- The node with a log store that works. -/
def working (n : Node σ) : Node σ := { n with writes := [] }

end Node

/-- The call, repeated with a working log store, ends and answers as if the failed one had never
been made; only the write-ahead log may hold a record of it.  This is what "the caller may retry"
comes to. -/
def Submission.Forgotten (E : Env σ) (n : Node σ) (c : Submission) : Prop :=
  ∃ w, c.run E (c.run E n).1.working =
    ((c.run E n.working).1.withWal w, (c.run E n.working).2)

/-! ## 2. Nobody reads the write-ahead log -/

namespace Node

variable {w : List Record}

theorem saveSnapshot_withWal (s : Snapshot) :
    (n.withWal w).saveSnapshot s = ((n.saveSnapshot s).1.withWal w, (n.saveSnapshot s).2) := by
  unfold saveSnapshot
  by_cases hok : n.saves.headD true = true
  · rw [if_pos hok, if_pos (show (n.withWal w).saves.headD true = true from hok)]
    rfl
  · rw [if_neg hok, if_neg (show ¬ (n.withWal w).saves.headD true = true from hok)]
    rfl

theorem maybeCompactLocked_withWal :
    (n.withWal w).maybeCompactLocked E = (n.maybeCompactLocked E).withWal w := by
  unfold maybeCompactLocked
  rw [show E.take (n.withWal w).fsm = E.take n.fsm from rfl]
  cases E.take n.fsm with
  | none =>
    simp only [apply_ite (withWal w)]
    rfl
  | some data =>
    dsimp only
    rw [saveSnapshot_withWal]
    simp only [apply_ite (withWal w)]
    rfl

theorem applyConfigLocked_withWal (cfg : Configuration) (idx : ℕ) :
    (n.withWal w).applyConfigLocked cfg idx = (n.applyConfigLocked cfg idx).withWal w := by
  unfold applyConfigLocked
  dsimp only [withWal, registerPeers]
  by_cases hlead : n.role = .leader
  · simp only [hlead, if_true, reconcile, saveMeta, isVoter]
    split_ifs <;> rfl
  · simp only [hlead, if_false, saveMeta, isVoter]
    split_ifs <;> rfl

theorem applyNext_withWal : (n.withWal w).applyNext E = (n.applyNext E).withWal w := by
  unfold applyNext
  dsimp only
  rw [show (n.withWal w).log.entryAt ((n.withWal w).lastApplied + 1) =
    n.log.entryAt (n.lastApplied + 1) from rfl]
  generalize n.log.entryAt (n.lastApplied + 1) = e
  obtain ⟨term, command, config⟩ := e
  cases config with
  | some cfg => exact applyConfigLocked_withWal (n := { n with
      lastApplied := n.lastApplied + 1, applied := _ }) cfg _
  | none =>
    cases command with
    | some cmd => exact maybeCompactLocked_withWal (n := { n with
        lastApplied := n.lastApplied + 1, applied := _, fsm := _ })
    | none => rfl

theorem applyLoop_withWal (w : List Record) : ∀ (turns : ℕ) (n : Node σ),
    applyLoop E turns (n.withWal w) = (applyLoop E turns n).withWal w
  | 0, _ => rfl
  | turns + 1, n => by
    rw [applyLoop, applyLoop, applyNext_withWal]
    exact applyLoop_withWal w turns _

theorem commitLoop_withWal (w : List Record) : ∀ (turns idx : ℕ) (n : Node σ),
    commitLoop turns idx (n.withWal w) = (commitLoop turns idx n).withWal w
  | 0, _, _ => rfl
  | turns + 1, idx, n => by
    have hnext := commitLoop_withWal w turns (idx + 1) n
    have hmove := commitLoop_withWal w turns (idx + 1) { n with commitIndex := idx }
    rw [commitLoop, commitLoop, hnext, apply_ite (withWal w), apply_ite (withWal w), ← hmove]
    rfl

theorem updateCommitIndexLocked_withWal :
    (n.withWal w).updateCommitIndexLocked E = (n.updateCommitIndexLocked E).withWal w := by
  unfold updateCommitIndexLocked applyCommittedLocked
  rw [show commitLoop ((n.withWal w).log.lastIndex - (n.withWal w).commitIndex)
      ((n.withWal w).commitIndex + 1) (n.withWal w) = _ from commitLoop_withWal w _ _ n]
  exact applyLoop_withWal w _ _

theorem persistEntryLocked_withWal (idx : ℕ) (e : Entry) :
    ∃ w', (n.withWal w).persistEntryLocked E idx e =
      ((n.persistEntryLocked E idx e).1.withWal w', (n.persistEntryLocked E idx e).2) := by
  unfold persistEntryLocked
  by_cases hstore : n.logStore = true
  · rw [if_neg (show ¬ ¬ n.logStore = true from not_not.mpr hstore),
      if_neg (show ¬ ¬ (n.withWal w).logStore = true from not_not.mpr hstore)]
    rw [show (n.withWal w).writes = n.writes from rfl]
    cases record E idx e with
    | none => exact ⟨w, rfl⟩
    | some rec =>
      cases n.writes.headD .ok with
      | ok => exact ⟨w ++ [rec], rfl⟩
      | lost => exact ⟨w, rfl⟩
      | late => exact ⟨w ++ [rec], rfl⟩
  · rw [if_pos (show ¬ n.logStore = true from hstore),
      if_pos (show ¬ (n.withWal w).logStore = true from hstore)]
    exact ⟨w, rfl⟩

/-- A drafted entry, and the node with another write-ahead log. -/
def redraft (w : List Record) (p : Node σ × Entry) : Node σ × Entry := (p.1.withWal w, p.2)

theorem submit_withWal (draft : Except Error (Node σ × Entry)) :
    ∃ w', (n.withWal w).submit E (draft.map (redraft w)) =
      ((n.submit E draft).1.withWal w', (n.submit E draft).2) := by
  cases draft with
  | error err => exact ⟨w, rfl⟩
  | ok p =>
    obtain ⟨m, e⟩ := p
    obtain ⟨w', hw⟩ := persistEntryLocked_withWal (E := E) (n := m) (w := w)
      (m.log.lastIndex + 1) e
    refine ⟨w', ?_⟩
    unfold submit appendEntryLocked addEntry
    dsimp only [Except.map, redraft]
    rw [show (m.withWal w).log = m.log from rfl, hw]
    obtain ⟨m', ok⟩ := m.persistEntryLocked E (m.log.lastIndex + 1) e
    cases ok with
    | false => rfl
    | true =>
      dsimp only
      rw [show ({ m'.withWal w' with log := (m'.withWal w').log.append e } : Node σ) =
        withWal w' { m' with log := m'.log.append e } from rfl, updateCommitIndexLocked_withWal]

theorem proposed_withWal (command : Option Bytes) :
    (n.withWal w).proposed command = (n.proposed command).map (redraft w) := by
  unfold proposed
  rw [apply_ite (Except.map (redraft w))]
  rfl

theorem addition_withWal (id addr : String) :
    (n.withWal w).addition id addr = (n.addition id addr).map (redraft w) := by
  unfold addition
  rw [apply_ite (Except.map (redraft w)), apply_ite (Except.map (redraft w))]
  rfl

theorem removal_withWal (id : String) :
    (n.withWal w).removal id = (n.removal id).map (redraft w) := by
  unfold removal
  rw [apply_ite (Except.map (redraft w)), apply_ite (Except.map (redraft w))]
  rfl

theorem tryBecomeLeader_withWal (term : ℕ) :
    ∃ w', (n.withWal w).tryBecomeLeader E term =
      ((n.tryBecomeLeader E term).1.withWal w', (n.tryBecomeLeader E term).2) := by
  obtain ⟨w', hw⟩ := persistEntryLocked_withWal (E := E) (n := n) (w := w)
    (n.log.lastIndex + 1) { term := term }
  unfold tryBecomeLeader takeOffice
  rw [show (n.withWal w).role = n.role from rfl,
    show (n.withWal w).currentTerm = n.currentTerm from rfl]
  by_cases hled : n.role = .leader ∧ n.currentTerm = term
  · rw [if_pos hled, if_pos hled]
    exact ⟨w, rfl⟩
  rw [if_neg hled, if_neg hled]
  by_cases hstop : n.role ≠ .candidate ∨ n.currentTerm ≠ term
  · rw [if_pos hstop, if_pos hstop]
    exact ⟨w, rfl⟩
  rw [if_neg hstop, if_neg hstop]
  refine ⟨w', ?_⟩
  dsimp only
  rw [show (n.withWal w).log = n.log from rfl, hw]
  generalize n.persistEntryLocked E (n.log.lastIndex + 1) { term := term } = r
  obtain ⟨m, ok⟩ := r
  cases ok with
  | false => rfl
  | true =>
    dsimp only
    rw [show (m.withWal w').assumeLeadership (n.log.lastIndex + 1) term =
      (m.assumeLeadership (n.log.lastIndex + 1) term).withWal w' from rfl,
      updateCommitIndexLocked_withWal]

end Node

theorem Submission.run_withWal (E : Env σ) (n : Node σ) (w : List Record) (c : Submission) :
    ∃ w', c.run E (n.withWal w) = ((c.run E n).1.withWal w', (c.run E n).2) := by
  have hsubmit : ∀ draft : Except Error (Node σ × Entry), ∃ w',
      (((n.withWal w).submit E (draft.map (Node.redraft w))).1,
        Answer.index ((n.withWal w).submit E (draft.map (Node.redraft w))).2) =
      ((n.submit E draft).1.withWal w', Answer.index (n.submit E draft).2) := by
    intro draft
    obtain ⟨w', hw⟩ := Node.submit_withWal (E := E) (n := n) (w := w) draft
    exact ⟨w', by rw [hw]⟩
  cases c with
  | propose command =>
    simp only [Submission.run, Node.propose, Node.proposed_withWal]
    exact hsubmit _
  | addServer id addr =>
    simp only [Submission.run, Node.addServer, Node.addition_withWal]
    exact hsubmit _
  | removeServer id =>
    simp only [Submission.run, Node.removeServer, Node.removal_withWal]
    exact hsubmit _
  | tryBecomeLeader term =>
    obtain ⟨w', hw⟩ := Node.tryBecomeLeader_withWal (E := E) (n := n) (w := w) term
    exact ⟨w', by rw [Submission.run, Submission.run, hw]⟩

/-! ## 3. What a refused call leaves behind -/

namespace Node

/-- The node after a refused write: its outcome is used up, and a late write left its record. -/
def Spent (n n' : Node σ) : Prop := ∃ w ws, n' = { n with wal := w, writes := ws }

variable {e : Entry} {n' : Node σ} {id : String}

theorem persistEntryLocked_refused (h : n.Refuses E e) :
    ∃ n', Spent n n' ∧ n.persistEntryLocked E (n.log.lastIndex + 1) e = (n', false) := by
  obtain ⟨hstore, hno⟩ := h
  unfold persistEntryLocked
  rw [if_neg (not_not.mpr hstore)]
  cases hrec : record E (n.log.lastIndex + 1) e with
  | none => exact ⟨n, ⟨_, _, rfl⟩, rfl⟩
  | some rec =>
    have hw : n.writes.headD .ok ≠ .ok := hno.resolve_left (by simp [hrec])
    cases hout : n.writes.headD .ok with
    | ok => exact absurd hout hw
    | lost => exact ⟨_, ⟨_, _, rfl⟩, rfl⟩
    | late => exact ⟨_, ⟨_, _, rfl⟩, rfl⟩

/-- A refused entry: the node stays as it was when the entry was drafted. -/
theorem submit_refused {m : Node σ} (h : m.Refuses E e) :
    ∃ m', Spent m m' ∧ n.submit E (.ok (m, e)) = (m', .error .notPersisted) := by
  obtain ⟨m', hs, heq⟩ := persistEntryLocked_refused h
  refine ⟨m', hs, ?_⟩
  unfold submit appendEntryLocked addEntry
  dsimp only
  rw [heq]

theorem tryBecomeLeader_refused {term : ℕ} (hrole : n.role = .candidate)
    (hterm : n.currentTerm = term) (h : n.Refuses E { term := term }) :
    ∃ n', Spent n n' ∧ n.tryBecomeLeader E term = (n', false) := by
  obtain ⟨n', hs, heq⟩ := persistEntryLocked_refused h
  refine ⟨n', hs, ?_⟩
  unfold tryBecomeLeader takeOffice
  rw [if_neg (by simp [hrole]), if_neg (by simp [hrole, hterm])]
  dsimp only
  rw [heq]

theorem Spent.unchanged (h : Spent n n') : Unchanged n n' := by
  obtain ⟨w, ws, rfl⟩ := h
  constructor <;> rfl

theorem Spent.working (h : Spent n n') : ∃ w, n'.working = n.working.withWal w := by
  obtain ⟨w, ws, rfl⟩ := h
  exact ⟨w, rfl⟩

theorem enlist_changed (id addr : String) : (n.enlist id addr).joining ≠ n.joining := by
  intro h
  have hlen := congrArg List.length h
  simp [enlist] at hlen

end Node

namespace Submission

variable {c : Submission} {e : Entry}

theorem draft_of_entry {draft : Except Error (Node σ × Entry)}
    (h : draft.toOption.map Prod.snd = some e) : ∃ m, draft = .ok (m, e) := by
  cases draft with
  | error err => cases h
  | ok p =>
    obtain ⟨m, e'⟩ := p
    cases h
    exact ⟨m, rfl⟩

/-- A refused call that is no `AddServer` leaves the node as it was. -/
theorem run_spent (he : c.entry n = some e) (hr : n.Refuses E e) (hc : c.isAddServer = false) :
    Node.Spent n (c.run E n).1 := by
  cases c with
  | propose command =>
    obtain ⟨m, hd⟩ := draft_of_entry he
    obtain rfl : m = n := congrArg Prod.fst (Node.proposed_ok hd).2
    obtain ⟨m', hs, heq⟩ := Node.submit_refused (n := m) hr
    rw [run, Node.propose, hd, heq]
    exact hs
  | addServer id addr => cases hc
  | removeServer id =>
    obtain ⟨m, hd⟩ := draft_of_entry he
    obtain rfl : m = n := congrArg Prod.fst (Node.removal_ok hd).2
    obtain ⟨m', hs, heq⟩ := Node.submit_refused (n := m) hr
    rw [run, Node.removeServer, hd, heq]
    exact hs
  | tryBecomeLeader term =>
    dsimp only [entry] at he
    split at he
    next hcand =>
      cases he
      obtain ⟨n', hs, heq⟩ := Node.tryBecomeLeader_refused hcand.1 hcand.2 hr
      rw [run, heq]
      exact hs
    next => cases he

theorem run_enlisted {id addr : String} (he : (addServer id addr).entry n = some e)
    (hr : n.Refuses E e) :
    Node.Spent (n.enlist id addr) ((addServer id addr).run E n).1 := by
  obtain ⟨m, hd⟩ := draft_of_entry he
  obtain ⟨_, _, hm⟩ := Node.addition_ok hd
  obtain rfl : m = n.enlist id addr := congrArg Prod.fst hm
  obtain ⟨m', hs, heq⟩ := Node.submit_refused (n := n) (m := n.enlist id addr) hr
  rw [run, Node.addServer, hd, heq]
  exact hs

/-- **A refused call is as if it had never been made exactly when it is no `AddServer`.**  The other
three draft their entry and touch the node after the log store has answered; `AddServer` registers
the newcomer first, so that replication to it can start. -/
theorem refused_unchanged_iff (he : c.entry n = some e) (hr : n.Refuses E e) :
    Node.Unchanged n (c.run E n).1 ∧ c.Forgotten E n ↔ c.isAddServer = false := by
  constructor
  · rintro ⟨hsame, -⟩
    cases c with
    | addServer id addr =>
      have hleft := (run_enlisted he hr).unchanged.joining
      exact absurd (hleft.symm.trans hsame.joining) (Node.enlist_changed id addr)
    | propose => rfl
    | removeServer => rfl
    | tryBecomeLeader => rfl
  · intro hc
    have hs := run_spent he hr hc
    refine ⟨hs.unchanged, ?_⟩
    obtain ⟨w, hw⟩ := hs.working
    obtain ⟨w', hrun⟩ := run_withWal E n.working w c
    exact ⟨w', by rw [hw, hrun]⟩

/-- A lone server that has elected itself, before a write that its log store refuses. -/
def loneLeader : Node Unit :=
  let n := (newNode "a" [] 0 () true false false).becomeCandidate.1
  { (n.tryBecomeLeader plainEnv 1).1 with writes := [.lost] }

theorem refused_unchanged_proposal :
    loneLeader.Refuses plainEnv { term := 1, command := some [] } ∧
      Node.Unchanged loneLeader ((propose (some [])).run plainEnv loneLeader).1 ∧
      (propose (some [])).Forgotten plainEnv loneLeader := by
  have hr : loneLeader.Refuses plainEnv { term := 1, command := some [] } :=
    ⟨by decide, Or.inr (by decide)⟩
  exact ⟨hr, (refused_unchanged_iff (by decide) hr).mpr rfl⟩

/-- The failed `AddServer` of the lone leader: the newcomer stays enlisted, and the same call is
refused ever after, where it would have been granted. -/
theorem refused_unchanged_fails :
    (∃ e, (addServer "d" "").entry loneLeader = some e ∧ loneLeader.Refuses plainEnv e) ∧
    ((addServer "d" "").run plainEnv loneLeader).2 = .index (.error .notPersisted) ∧
    ¬ Node.Unchanged loneLeader ((addServer "d" "").run plainEnv loneLeader).1 ∧
    ((addServer "d" "").run plainEnv loneLeader.working).2 = .index (.ok 2) ∧
    ((addServer "d" "").run plainEnv ((addServer "d" "").run plainEnv loneLeader).1.working).2 =
      .index (.error (.alreadyMember "d")) := by
  refine ⟨⟨_, rfl, by decide, Or.inr (by decide)⟩, by decide, fun h => ?_, by decide, by decide⟩
  have hjoin := h.joining
  revert hjoin
  decide

end Submission

end Cachey.Raft
