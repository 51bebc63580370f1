/-
# Proposals out of order

A follower hears the proposals of a chain in any order, some of them more than once.  One that
arrives before its parent is buffered under the parent; when the parent is accepted it is handed
back, handled like a new one, and may release others.  So the follower climbs the chain block by
block, whatever the order: where it stands is a function of ONE number, how far the chain is
complete.

* §1  A chain of valid view-0 proposals under fixed membership (`Line`).
* §2  Where a follower stands after `k` blocks (`Line.At`).
* §3  Accepting the next block: insertion, the certificate, the vote.
* §4  `HandleProposal` with its recursion (`settle`): the buffer is drained.
* §5  Two delivery sequences, one result.
-/
import Cachey.HotStuff.CatchUp
import Cachey.HotStuff.Epochs
import Cachey.HotStuff.Views

namespace Cachey.HotStuff

open Wal (WriteOutcome)

/-! ## 1. A chain of proposals -/

/-- A certificate of `q` by a quorum of `set`; genesis needs no votes. -/
structure QC.Backs (E : Env) (set : ValidatorSet) (q : Block) (qc : QC) : Prop where
  nodeID : qc.nodeID = q.id
  height : qc.height = q.height
  epoch : qc.epoch = 0
  quorum : q.id ≠ genesisID → set.quorum ≤ qc.votes.len ∧ qc.votes.entries.all fun e =>
    set.has e.1 && verifyInSet E set e.1 e.2 (.vote qc.height qc.nodeID e.1)

/-- A valid proposal of view 0 on top of `q`, by the leader of the set. -/
structure Proposal.Continues (E : Env) (leader0 : String) (set : ValidatorSet) (q : Block)
    (p : Proposal) : Prop where
  addressed : p.block.id = blockID p.block.view p.block.height p.block.parent p.block.cmd
  view : p.block.view = 0
  epoch : p.block.epoch = 0
  parent : p.block.parent = q.id
  above : q.height < p.block.height
  plain : isMembershipBlock E p.block = false
  certified : ∃ qc, p.block.justify = some qc ∧ qc.Backs E set q
  sender : leaderOfSet leader0 (some set) 0 = some p.sender
  signed : verifyInSet E set p.sender p.sig p.signable = true

/-- The block at a position of a sequence of proposals: the root, then theirs. -/
def blockAt (root : Block) (proposal : ℕ → Proposal) : ℕ → Block
  | 0 => root
  | k + 1 => (proposal (k + 1)).block

/-- The proposals `1, ..., length` of one leader in view 0, each on top of the one before. -/
structure Line (E : Env) (leader0 : String) (set : ValidatorSet) (root : Block) where
  length : ℕ
  proposal : ℕ → Proposal
  isRoot : IsGenesis root
  continues : ∀ k < length, (proposal (k + 1)).Continues E leader0 set (blockAt root proposal k)

namespace Line

variable {E : Env} {leader0 : String} {set : ValidatorSet} {root : Block}
  (L : Line E leader0 set root)

def block (k : ℕ) : Block := blockAt root L.proposal k

/-- The tree with the first `k` blocks. -/
def tree : ℕ → GoMap BlockID Block
  | 0 => (∅ : GoMap BlockID Block).insert genesisID root
  | k + 1 => (tree k).insert (L.block (k + 1)).id (L.block (k + 1))

variable {L} {i j k : ℕ}

@[simp]
theorem block_zero : L.block 0 = root := rfl

theorem block_succ (k : ℕ) : L.block (k + 1) = (L.proposal (k + 1)).block := rfl

theorem next (hk : k < L.length) : (L.proposal (k + 1)).Continues E leader0 set (L.block k) :=
  L.continues k hk

theorem height_lt (hj : j ≤ L.length) (h : i < j) : (L.block i).height < (L.block j).height := by
  induction j with
  | zero => omega
  | succ j ih =>
    have hstep : (L.block j).height < (L.block (j + 1)).height := (next (by omega)).above
    rcases Nat.lt_succ_iff_lt_or_eq.mp h with hlt | rfl
    · exact (ih (by omega) hlt).trans hstep
    · exact hstep

theorem id_height (hj : j ≤ L.length) : (L.block j).id.height = (L.block j).height := by
  cases j with
  | zero =>
    rw [block_zero, L.isRoot.id_eq, L.isRoot.height_eq]
    rfl
  | succ j =>
    rw [block_succ, (next (by omega)).addressed]
    rfl

theorem id_ne (hj : j ≤ L.length) (h : i < j) : (L.block i).id ≠ (L.block j).id := by
  intro heq
  have hlt := height_lt hj h
  rw [← id_height hj, ← id_height (h.le.trans hj), heq] at hlt
  exact lt_irrefl _ hlt

theorem id_ne_genesis (hk : k < L.length) : (L.block (k + 1)).id ≠ genesisID := by
  rw [block_succ, (next hk).addressed]
  exact BlockID.noConfusion

theorem parent_eq (hk : k < L.length) : (L.block (k + 1)).parent = (L.block k).id :=
  (next hk).parent

theorem id_ne_noID (hk : k ≤ L.length) : (L.block k).id ≠ noID := by
  cases k with
  | zero =>
    rw [block_zero, L.isRoot.id_eq]
    decide
  | succ k =>
    rw [block_succ, (next (by omega)).addressed]
    exact BlockID.noConfusion

theorem epoch_eq (hk : k ≤ L.length) : (L.block k).epoch = 0 := by
  cases k with
  | zero => exact L.isRoot.epoch_eq
  | succ k => exact (next (by omega)).epoch

theorem lookup_tree {id : BlockID} {b : Block} (hk : k ≤ L.length) :
    (L.tree k).lookup id = some b ↔ ∃ j ≤ k, b = L.block j ∧ id = (L.block j).id := by
  induction k with
  | zero =>
    simp only [tree, GoMap.lookup_insert_of, AList.lookup_empty]
    constructor
    · intro h
      split at h
      next hid => exact ⟨0, le_refl _, (Option.some.inj h).symm, hid.trans L.isRoot.id_eq.symm⟩
      next => cases h
    · rintro ⟨j, hj, rfl, rfl⟩
      obtain rfl := Nat.le_zero.mp hj
      rw [block_zero, if_pos L.isRoot.id_eq]
  | succ k ih =>
    simp only [tree, GoMap.lookup_insert_of]
    by_cases hid : id = (L.block (k + 1)).id
    · rw [if_pos hid]
      constructor
      · intro h
        exact ⟨k + 1, le_refl _, (Option.some.inj h).symm, hid⟩
      · rintro ⟨j, hj, rfl, hid'⟩
        rcases Nat.lt_or_eq_of_le hj with hlt | rfl
        · exact absurd (hid'.symm.trans hid) (id_ne hk hlt)
        · rfl
    · rw [if_neg hid, ih (by omega)]
      constructor
      · rintro ⟨j, hj, hb⟩
        exact ⟨j, by omega, hb⟩
      · rintro ⟨j, hj, hb, hid'⟩
        rcases Nat.lt_or_eq_of_le hj with hlt | rfl
        · exact ⟨j, by omega, hb, hid'⟩
        · exact absurd hid' hid

theorem lookup_block (hk : k ≤ L.length) (h : j ≤ k) :
    (L.tree k).lookup (L.block j).id = some (L.block j) :=
  (lookup_tree hk).mpr ⟨j, h, rfl, rfl⟩

theorem lookup_later (hj : j ≤ L.length) (h : k < j) : (L.tree k).lookup (L.block j).id = none := by
  rw [Option.eq_none_iff_forall_ne_some]
  intro b hb
  obtain ⟨i, hi, -, hid⟩ := (lookup_tree (by omega)).mp hb
  exact id_ne hj (by omega) hid.symm

theorem notMem_tree (hj : j ≤ L.length) (h : k < j) : (L.block j).id ∉ L.tree k :=
  AList.lookup_eq_none.mp (lookup_later hj h)

theorem grown (hk : k ≤ L.length) : Grown (L.tree k) := by
  intro id b hb
  obtain ⟨j, hj, rfl, rfl⟩ := (lookup_tree hk).mp hb
  refine ⟨rfl, ?_⟩
  cases j with
  | zero => exact Or.inl L.isRoot
  | succ j =>
    obtain ⟨qc, hqc, hback⟩ := (next (L := L) (k := j) (by omega)).certified
    exact Or.inr ⟨(next (by omega)).addressed, qc, hqc,
      hback.nodeID.trans (next (by omega)).parent.symm⟩

theorem plain (hk : k ≤ L.length) : isMembershipBlock E (L.block k) = false := by
  cases k with
  | zero =>
    rw [block_zero]
    simp [isMembershipBlock, isMembershipCmd, L.isRoot.cmd_eq]
  | succ k => exact (next (by omega)).plain

theorem oneChained (hk : k < L.length) : oneChainedBy (L.block k) (L.block (k + 1)) = true := by
  obtain ⟨qc, hqc, hback⟩ := (next hk).certified
  have hpar := parent_eq hk
  have hne : (L.block (k + 1)).parent ≠ noID := by
    rw [hpar]
    exact id_ne_noID hk.le
  unfold oneChainedBy
  rw [block_succ] at hpar hne ⊢
  simp [hpar, hqc, hback.nodeID, id_ne_noID hk.le]

end Line

/-! ## 2. Where a follower stands -/

/-- The vote a message carries, with its addressee. -/
def Effect.ballot : Effect → Option (String × Vote)
  | .send peer (.vote v) => some (peer, v)
  | _ => none

/-- The votes a journal sends, oldest first. -/
def votesIn (out : List Effect) : List (String × Vote) := (out.filterMap Effect.ballot).reverse

theorem votesIn_cons (e : Effect) (out : List Effect) :
    votesIn (e :: out) = votesIn out ++ e.ballot.toList := by
  unfold votesIn
  cases h : e.ballot <;> simp [h]

/-- Every write that is made succeeds. -/
def Replica.WritesSucceed (n : Replica) : Prop := ∀ o ∈ n.writes, o = WriteOutcome.ok

/-- Books are kept: no block, no pointer, no buffered proposal, no command and no vote. -/
def Idle (n n' : Replica) : Prop := ∃ fetches seq reqs applied notify writes out,
  n' = { n with
    fetches := fetches, syncSeq := seq, syncReqs := reqs, applied := applied, notify := notify
    writes := writes, out := out } ∧
  appliedIn out = appliedIn n.out ∧ votesIn out = votesIn n.out ∧
  (n.WritesSucceed → ∀ o ∈ writes, o = WriteOutcome.ok)

namespace Idle

variable {n : Replica}

theorem refl (n : Replica) : Idle n n := ⟨_, _, _, _, _, _, _, rfl, rfl, rfl, fun h => h⟩

theorem emit {e : Effect} (hc : e.command = none) (hb : e.ballot = none) : Idle n (n.emit e) := by
  refine ⟨_, _, _, _, _, _, _, rfl, ?_, ?_, fun h => h⟩
  · rw [appliedIn_cons, hc]
    exact List.append_nil _
  · rw [votesIn_cons, hb]
    exact List.append_nil _

theorem persistLocked (pe : PersistEntry) : Idle n (n.persistLocked pe).1 := by
  unfold Replica.persistLocked
  split
  · exact refl n
  · refine ⟨_, _, _, _, _, _, _, rfl, ?_, ?_, fun h o ho => h o (List.mem_of_mem_tail ho)⟩
    · rw [appliedIn_cons]
      exact List.append_nil _
    · rw [votesIn_cons]
      exact List.append_nil _

end Idle

theorem persistLocked_ok {n : Replica} (h : n.WritesSucceed) (pe : PersistEntry) :
    (n.persistLocked pe).2 = true := by
  unfold Replica.persistLocked
  split
  · rfl
  · rw [decide_eq_true_eq]
    cases hw : n.writes with
    | nil => rfl
    | cons o rest => exact h o (by rw [hw]; exact List.mem_cons_self)

/-- `n` with what a follower may write taken from `m`. -/
def Replica.following (n m : Replica) : Replica := { n with
  blocks := m.blocks, head := m.head, qcHigh := m.qcHigh, bLock := m.bLock, bExec := m.bExec
  vHeight := m.vHeight, pending := m.pending, fetches := m.fetches, syncSeq := m.syncSeq
  syncReqs := m.syncReqs, applied := m.applied, notify := m.notify, writes := m.writes, out := m.out }

theorem following_trans {a b c : Replica} (h₁ : b = a.following b) (h₂ : c = b.following c) :
    c = a.following c :=
  h₂.trans (congrArg (fun b => b.following c) h₁)

/-- A position on a line: the top of the tree, the lock, the executed prefix and the last vote, the
highest certificate, and the buffered proposals. -/
structure Position where
  tip : ℕ
  lock : ℕ
  exec : ℕ
  vote : ℕ
  high : QC
  shelf : GoMap BlockID (List Proposal)

namespace Line

variable {E : Env} {leader0 : String} {set : ValidatorSet} {root : Block}

/-- A replica that is ready to follow the line from its root. -/
structure Fresh (L : Line E leader0 set root) (n₀ : Replica) : Prop where
  leader0 : n₀.leader0 = leader0
  sets : n₀.sets.lookup 0 = some set
  view : n₀.view = 0
  gcBase : n₀.gcBase = genesisID
  wantBase : n₀.wantBase = none
  parked : n₀.pendingBlocks = ∅
  panicked : n₀.panicked = false
  qcHigh : n₀.qcHigh.height = 0

variable (L : Line E leader0 set root)

/-- The commands of the first `k` blocks. -/
def commands (k : ℕ) : List Block :=
  ((List.range k).map fun i => L.block (i + 1)).filter fun b => b.cmd ≠ []

/-- The vote of `n₀` for a block, and where it goes. -/
def ballot (n₀ : Replica) (k : ℕ) : String × Vote :=
  ((L.proposal k).sender,
    { height := (L.block k).height, nodeID := (L.block k).id, voter := n₀.id
      sig := E.sign n₀.priv (.vote (L.block k).height (L.block k).id n₀.id) })

/-- Its votes for the first `k` blocks. -/
def ballots (n₀ : Replica) (k : ℕ) : List (String × Vote) :=
  (List.range k).map fun i => L.ballot n₀ (i + 1)

/-- The follower `n₀` stands at a position. -/
structure At (n₀ : Replica) (pos : Position) (n : Replica) : Prop where
  same : n = n₀.following n
  blocks : n.blocks = L.tree pos.tip
  head : n.head = (L.block pos.tip).id
  qcHigh : n.qcHigh = pos.high
  bLock : n.bLock = (L.block pos.lock).id
  bExec : n.bExec = (L.block pos.exec).id
  vHeight : n.vHeight = (L.block pos.vote).height
  pending : n.pending = pos.shelf
  applied : appliedIn n.out = L.commands pos.exec
  votes : votesIn n.out = L.ballots n₀ pos.vote
  writes : n.WritesSucceed

/-- The highest certificate after `k` blocks: the one the last of them carries, from the second
on. -/
def high (qc₀ : QC) : ℕ → QC
  | 0 | 1 => qc₀
  | k + 2 => ((L.block (k + 2)).justify).getD qc₀

/-- The position after `k` blocks. -/
def position (n₀ : Replica) (k : ℕ) (shelf : GoMap BlockID (List Proposal)) : Position :=
  { tip := k, lock := k - 2, exec := k - 3, vote := k, high := L.high n₀.qcHigh k, shelf := shelf }

variable {L} {C : Ctx} {n₀ n n' : Replica} {pos : Position} {k : ℕ}

theorem commands_succ (hk : k < L.length) : L.commands (k + 1) = L.commands k ++
    if (L.block (k + 1)).cmd ≠ [] ∧ (L.block (k + 1)).id ≠ genesisID
    then [L.block (k + 1)] else [] := by
  unfold commands
  rw [List.range_succ, List.map_append, List.filter_append]
  congr 1
  by_cases hcmd : (L.block (k + 1)).cmd = []
  · simp [hcmd]
  · simp [hcmd, id_ne_genesis hk]

theorem ballots_succ (k : ℕ) : L.ballots n₀ (k + 1) = L.ballots n₀ k ++ [L.ballot n₀ (k + 1)] := by
  unfold ballots
  rw [List.range_succ, List.map_append]
  rfl

/-- Each block after the first raises the highest certificate to the block below it. -/
theorem high_height (hk : k ≤ L.length) {qc₀ : QC} (h₀ : qc₀.height = 0) :
    (L.high qc₀ k).height = (L.block (k - 1)).height := by
  match k with
  | 0 => exact h₀.trans L.isRoot.height_eq.symm
  | 1 => exact h₀.trans L.isRoot.height_eq.symm
  | k + 2 =>
    obtain ⟨qc, hqc, hback⟩ := (next (L := L) (k := k + 1) (by omega)).certified
    have hjust : (L.block (k + 2)).justify = some qc := hqc
    change (((L.block (k + 2)).justify).getD qc₀).height = _
    rw [hjust]
    exact hback.height

namespace At

variable (h : L.At n₀ pos n)

include h

theorem idle (hi : Idle n n') : L.At n₀ pos n' := by
  obtain ⟨fetches, seq, reqs, applied, notify, writes, out, rfl, happ, hvotes, hok⟩ := hi
  exact { h with
    same := following_trans h.same rfl
    applied := happ.trans h.applied
    votes := hvotes.trans h.votes
    writes := hok h.writes }

theorem lookup (htip : pos.tip ≤ L.length) (hk : k ≤ pos.tip) :
    n.blocks.lookup (L.block k).id = some (L.block k) := by
  rw [h.blocks]
  exact lookup_block htip hk

theorem heightOf (htip : pos.tip ≤ L.length) (hk : k ≤ pos.tip) :
    n.heightOf (L.block k).id = (L.block k).height := by
  unfold Replica.heightOf
  rw [h.lookup htip hk]

variable (h₀ : L.Fresh n₀)

include h₀

theorem leads : n.leader0 = leader0 :=
  (congrArg Replica.leader0 h.same).trans h₀.leader0

theorem sets : n.sets.lookup 0 = some set :=
  (congrArg (fun n => n.sets.lookup 0) h.same).trans h₀.sets

theorem view : n.view = 0 :=
  (congrArg Replica.view h.same).trans h₀.view

theorem gcBase : n.gcBase = genesisID :=
  (congrArg Replica.gcBase h.same).trans h₀.gcBase

theorem wantBase : n.wantBase = none :=
  (congrArg Replica.wantBase h.same).trans h₀.wantBase

theorem parked : n.pendingBlocks = ∅ :=
  (congrArg Replica.pendingBlocks h.same).trans h₀.parked

theorem panicked : n.panicked = false :=
  (congrArg Replica.panicked h.same).trans h₀.panicked

theorem qcValid (htip : pos.tip ≤ L.length) (hk : k ≤ pos.tip) {qc : QC}
    (hback : qc.Backs E set (L.block k)) : n.qcValid E qc = true := by
  by_cases hgen : (L.block k).id = genesisID
  · have hzero : k = 0 := by
      by_contra hne
      obtain ⟨j, rfl⟩ := Nat.exists_eq_succ_of_ne_zero hne
      exact id_ne_genesis (L := L) (by omega) hgen
    subst hzero
    unfold Replica.qcValid
    rw [if_pos (hback.nodeID.trans hgen), hback.height, hback.epoch, block_zero,
      L.isRoot.height_eq]
    rfl
  · rw [qcValid_iff (by rw [hback.nodeID]; exact hgen)]
    obtain ⟨hquorum, hvotes⟩ := hback.quorum hgen
    constructor
    · unfold QC.hasQuorum
      rw [hback.epoch, h.sets h₀]
      dsimp only
      rw [hvotes, Bool.and_true, decide_eq_true_eq]
      exact hquorum
    · unfold Replica.contradicts
      rw [hback.nodeID, h.lookup htip hk]
      simp [hback.height, hback.epoch, epoch_eq (L := L) (k := k) (by omega)]

end At

/-! ## 3. The next block

Block `k + 1` brings the certificate of block `k`.  On a line heights have no gaps, so folding it
locks block `k - 1` and executes block `k - 2`: the pointers trail the top at fixed distances. -/

section Steps

variable {tip lock exec vote j : ℕ} {qc : QC} {shelf : GoMap BlockID (List Proposal)}

theorem At.execBlock (h : L.At n₀ ⟨tip, lock, exec, vote, qc, shelf⟩ n) (hexec : exec < L.length) :
    L.At n₀ ⟨tip, lock, exec + 1, vote, qc, shelf⟩ (n.execBlock E (L.block (exec + 1))) := by
  have hact : activation E (n.sets, n.epoch) (L.block (exec + 1)) = (n.sets, n.epoch) := by
    unfold activation
    rw [if_pos (by simp [plain (L := L) (k := exec + 1) (by omega)])]
  have happ := appliedIn_execBlock E (L.block (exec + 1)) n
  have hvotes : votesIn (n.execBlock E (L.block (exec + 1))).out = votesIn n.out := by
    have hmark : ∀ (id : BlockID) (m : Replica),
        votesIn (m.markAppliedLocked id).out = votesIn m.out := by
      intro id m
      unfold Replica.markAppliedLocked
      split
      · rfl
      · dsimp only
        split
        · exact (votesIn_cons _ _).trans (List.append_nil _)
        · rfl
    unfold Replica.execBlock
    rw [hmark, activateTransitionLocked_eq]
    split
    · exact (votesIn_cons _ _).trans ((List.append_nil _).trans
        ((votesIn_cons _ _).trans (List.append_nil _)))
    · exact (votesIn_cons _ _).trans (List.append_nil _)
  obtain ⟨a, w, o, heq, -⟩ := execBlock_eq (E := E) n (L.block (exec + 1))
  rw [hact] at heq
  rw [heq] at happ hvotes ⊢
  exact { h with
    same := following_trans h.same rfl
    bExec := rfl
    applied := by
      rw [commands_succ hexec, ← h.applied]
      exact happ
    votes := hvotes.trans h.votes }

theorem At.commitUpToLocked (h : L.At n₀ ⟨tip, lock, exec, vote, qc, shelf⟩ n)
    (htip : tip ≤ L.length) (hexec : exec < tip) :
    L.At n₀ ⟨tip, lock, exec + 1, vote, qc, shelf⟩
      (n.commitUpToLocked E (L.block (exec + 1))) := by
  have hspan : ((n.path (L.block (exec + 1))).takeWhile fun b => b.id ≠ n.bExec) =
      [L.block (exec + 1)] := by
    have hpath : ∃ rest, n.path (L.block (exec + 1)) =
        L.block (exec + 1) :: L.block exec :: rest := by
      have hpar := parent_eq (L := L) (k := exec) (by omega)
      have hwalk : ∀ fuel, ∃ rest, walk n.blocks fuel (L.block exec) = L.block exec :: rest := by
        rintro (_ | fuel)
        · exact ⟨[], rfl⟩
        · exact ⟨_, rfl⟩
      obtain ⟨rest, hrest⟩ := hwalk (L.block (exec + 1)).parent.depth
      refine ⟨rest, ?_⟩
      unfold Replica.path
      rw [walk, if_neg (by rw [hpar]; exact id_ne_noID (by omega)), hpar, h.lookup htip hexec.le]
      dsimp only
      rw [← hpar, hrest]
    obtain ⟨rest, hrest⟩ := hpath
    have hne : (L.block (exec + 1)).id ≠ n.bExec := by
      rw [h.bExec]
      exact (id_ne (by omega) (Nat.lt_succ_self exec)).symm
    rw [hrest, List.takeWhile_cons_of_pos (by simpa using hne),
      List.takeWhile_cons_of_neg (by simp [h.bExec])]
  unfold Replica.commitUpToLocked
  rw [hspan]
  exact (h.execBlock (by omega)).idle (Idle.persistLocked _)

theorem At.raiseLock (h : L.At n₀ ⟨tip, lock, exec, vote, qc, shelf⟩ n) (htip : tip ≤ L.length)
    (hlock : lock ≤ k) (hk : k ≤ tip) :
    L.At n₀ ⟨tip, k, exec, vote, qc, shelf⟩ (n.raiseLock (L.block k)) := by
  unfold Replica.raiseLock
  rw [h.bLock, h.heightOf htip (hlock.trans hk)]
  split
  · exact { h with same := following_trans h.same rfl, bLock := rfl }
  next hle =>
    have heq : lock = k := by
      by_contra hne
      exact hle (height_lt (hk.trans htip) (by omega))
    exact heq ▸ h

/-- **The chain rule**: the certified block's parent is locked, the block below that is
committed. -/
theorem At.chainRule (h : L.At n₀ ⟨tip, lock, k - 2, vote, qc, shelf⟩ n) (htip : tip ≤ L.length)
    (hlock : lock ≤ k) (hk : k < tip) :
    L.At n₀ ⟨tip, k, k - 1, vote, qc, shelf⟩ (n.chainRule E (L.block (k + 1))) := by
  have hraised := h.raiseLock htip hlock hk.le
  unfold Replica.chainRule
  rw [parent_eq (L := L) (by omega), h.lookup htip hk.le]
  dsimp only
  rw [if_neg (by rw [oneChained (L := L) (by omega)]; simp)]
  match k with
  | 0 =>
    have hnone : (n.raiseLock (L.block 0)).blocks.lookup (L.block 0).parent = none := by
      rw [hraised.blocks, block_zero, L.isRoot.parent_eq, Option.eq_none_iff_forall_ne_some]
      intro b hb
      obtain ⟨j, hj, -, hid⟩ := (lookup_tree htip).mp hb
      exact id_ne_noID (L := L) (hj.trans htip) hid.symm
    rw [hnone]
    exact hraised
  | g + 1 =>
    rw [parent_eq (L := L) (by omega), hraised.lookup htip (k := g) (by dsimp only; omega)]
    rw [hraised.bExec, hraised.heightOf htip (by dsimp only; omega)]
    dsimp only at hraised ⊢
    match g with
    | 0 =>
      rw [if_neg (by simp)]
      exact hraised
    | g + 1 =>
      rw [if_pos ⟨oneChained (by omega), height_lt (by omega) (by omega)⟩]
      exact hraised.commitUpToLocked htip (by omega)

/-- The certificate of block `k` is folded when block `k + 1` is in the tree. -/
theorem At.onNewQCLocked (h : L.At n₀ ⟨k + 1, k - 2, k - 3, vote, L.high n₀.qcHigh k, shelf⟩ n)
    (h₀ : L.Fresh n₀) (hk : k < L.length) (hqc : (L.block (k + 1)).justify = some qc) :
    L.At n₀ ⟨k + 1, k + 1 - 2, k + 1 - 3, vote, L.high n₀.qcHigh (k + 1), shelf⟩
      (n.onNewQCLocked E qc) := by
  obtain ⟨qc', hqc', hback⟩ := (next hk).certified
  obtain rfl := Option.some.inj (hqc.symm.trans hqc')
  have hvalid := h.qcValid h₀ hk (Nat.le_succ k) hback
  have hhigh := high_height (L := L) hk.le h₀.qcHigh
  unfold Replica.onNewQCLocked
  rw [if_neg (by simp [hvalid]), h.qcHigh]
  dsimp only
  rw [hhigh, hback.height]
  match k with
  | 0 =>
    -- the certificate of genesis is no higher than the one the replica starts with
    rw [if_pos (le_refl _)]
    exact h
  | k + 1 =>
    have hlt : (L.block (k + 1 - 1)).height < (L.block (k + 1)).height :=
      height_lt hk.le (Nat.lt_succ_self k)
    rw [if_neg (Nat.not_le.mpr hlt)]
    have hnext : L.high n₀.qcHigh (k + 2) = qc := by
      change ((L.block (k + 2)).justify).getD n₀.qcHigh = qc
      rw [hqc]
      rfl
    have hraised : L.At n₀ ⟨k + 2, k + 1 - 2, k - 2, vote, qc, shelf⟩
        ({ n with qcHigh := qc }.persistRecordLocked (.qc qc)) := by
      have hset : L.At n₀ ⟨k + 2, k + 1 - 2, k - 2, vote, qc, shelf⟩ { n with qcHigh := qc } :=
        { h with same := following_trans h.same rfl, qcHigh := rfl }
      exact hset.idle (Idle.persistLocked _)
    rw [hback.nodeID, hraised.lookup hk (k := k + 1) (by dsimp only; omega), hnext]
    exact hraised.chainRule hk (by omega) (by omega)

theorem At.insertBlock (h : L.At n₀ (L.position n₀ k shelf) n) (h₀ : L.Fresh n₀)
    (hk : k < L.length) :
    L.At n₀ { L.position n₀ (k + 1) shelf with vote := k } (n.insertBlock E (L.block (k + 1))) := by
  obtain ⟨qc, hqc, -⟩ := (next hk).certified
  have hqc : (L.block (k + 1)).justify = some qc := hqc
  let m : Replica := { n with
    blocks := n.blocks.insert (L.block (k + 1)).id (L.block (k + 1))
    fetches := n.fetches.erase (L.block (k + 1)).id }
  -- block and head
  have hput : L.At n₀ { L.position n₀ k shelf with tip := k + 1 }
      { m.persistRecordLocked (.block (L.block (k + 1))) with head := (L.block (k + 1)).id } := by
    obtain ⟨fetches, seq, reqs, applied, notify, writes, out, heq, happ, hvotes, hok⟩ :=
      Idle.persistLocked (n := m) (.block (L.block (k + 1)))
    have heq : m.persistRecordLocked (.block (L.block (k + 1))) = _ := heq
    rw [heq]
    exact { h with
      same := following_trans h.same rfl
      blocks := by
        change n.blocks.insert _ _ = _
        rw [h.blocks]
        rfl
      head := rfl
      applied := happ.trans h.applied
      votes := hvotes.trans h.votes
      writes := hok h.writes }
  have hhead : (m.persistRecordLocked (.block (L.block (k + 1)))).head = (L.block k).id := by
    obtain ⟨w, o, heq⟩ := persistRecordLocked_eq (.block (L.block (k + 1))) m
    rw [heq]
    exact h.head
  have hheight : (m.persistRecordLocked (.block (L.block (k + 1)))).heightOf (L.block k).id =
      (L.block k).height := hput.heightOf hk (Nat.le_succ k)
  have hfolded := At.onNewQCLocked (L := L) hput h₀ hk hqc
  unfold Replica.insertBlock
  dsimp only
  rw [hhead, hheight, if_pos (height_lt (by omega) (Nat.lt_succ_self k)), hqc]
  unfold Replica.completeBaseLocked
  rw [hfolded.wantBase h₀]
  exact hfolded

theorem At.epochAndSetOfLocked (h : L.At n₀ pos n) (h₀ : L.Fresh n₀) (htip : pos.tip ≤ L.length)
    (hk : k ≤ L.length) : n.epochAndSetOfLocked E (L.block k) = (0, some set) := by
  have hgrown : Grown n.blocks := by
    rw [h.blocks]
    exact grown htip
  have hts : transitions E none none none
      ((n.path (L.block k)).takeWhile fun cur => cur.id ≠ n.gcBase) = [] := by
    refine transitions_eq_nil _ _ _ _ fun x hx => ?_
    rcases hgrown.mem_walk _ _ _ ((List.takeWhile_sublist _).subset hx) with rfl | hin
    · exact plain hk
    · rw [h.blocks] at hin
      obtain ⟨j, hj, rfl, -⟩ := (lookup_tree htip).mp hin
      exact plain (hj.trans htip)
  have hbase : n.blocks.lookup n.gcBase = some root := by
    rw [h.gcBase h₀, ← L.isRoot.id_eq]
    exact h.lookup htip (k := 0) (Nat.zero_le _)
  unfold Replica.epochAndSetOfLocked
  rw [hts, hbase]
  dsimp only
  rw [L.isRoot.epoch_eq, h.sets h₀]
  split <;> rfl

theorem At.epochGate (h : L.At n₀ pos n) (h₀ : L.Fresh n₀) (htip : pos.tip ≤ L.length)
    (hk : k ≤ L.length) : n.epochGate E (L.block k) = true := by
  simp [Replica.epochGate, h.epochAndSetOfLocked h₀ htip hk, epoch_eq hk]

theorem At.addBlockLocked (h : L.At n₀ (L.position n₀ k shelf) n) (h₀ : L.Fresh n₀)
    (hk : k < L.length) :
    L.At n₀ { L.position n₀ (k + 1) (shelf.erase (L.block (k + 1)).id) with vote := k }
        (n.addBlockLocked E (L.block (k + 1))).1 ∧
      (n.addBlockLocked E (L.block (k + 1))).2 = (shelf.lookup (L.block (k + 1)).id).getD [] := by
  have hin := h.insertBlock h₀ hk
  have hcount : n.parkedCount = 0 := by
    unfold Replica.parkedCount
    rw [h.parked h₀]
    rfl
  have hnew : (L.block (k + 1)).id ∉ n.blocks := by
    rw [h.blocks]
    exact notMem_tree hk (Nat.lt_succ_self k)
  have hturn : n.addBlockTurn E (L.block (k + 1)) =
      ({ n.insertBlock E (L.block (k + 1)) with pending := shelf.erase (L.block (k + 1)).id },
        (shelf.lookup (L.block (k + 1)).id).getD [], []) := by
    unfold Replica.addBlockTurn
    rw [if_neg hnew, if_neg (by rw [h.epochGate h₀ hk.le hk]; simp)]
    have hnone : (n.insertBlock E (L.block (k + 1))).pendingBlocks.erase (L.block (k + 1)).id =
        (n.insertBlock E (L.block (k + 1))).pendingBlocks := by
      rw [hin.parked h₀]
      rfl
    dsimp only
    rw [hnone, hin.pending, hin.parked h₀]
    rfl
  unfold Replica.addBlockLocked
  rw [hcount]
  unfold Replica.addBlockLoop
  rw [hturn]
  exact ⟨{ hin with same := following_trans hin.same rfl, pending := rfl }, rfl⟩

theorem At.castVote (h : L.At n₀ { pos with vote := k } n) (hk : k < L.length) :
    (n.castVote E (L.block (k + 1))).2 = some (L.ballot n₀ (k + 1)).2 ∧
      ∀ e : Effect, e.command = none → e.ballot = some (L.ballot n₀ (k + 1)) →
        L.At n₀ { pos with vote := k + 1 } ((n.castVote E (L.block (k + 1))).1.emit e) := by
  have hid : n.id = n₀.id := by rw [h.same]; rfl
  have hpriv : n.priv = n₀.priv := by rw [h.same]; rfl
  have hlt : n.vHeight < (L.block (k + 1)).height := by
    rw [h.vHeight]
    exact height_lt hk (Nat.lt_succ_self k)
  obtain ⟨fetches, seq, reqs, applied, notify, writes, out, heq, happ, hvotes, hok⟩ :=
    Idle.persistLocked (n := { n with vHeight := (L.block (k + 1)).height })
      (.voted (L.block (k + 1)).height)
  have hwrote := persistLocked_ok (n := { n with vHeight := (L.block (k + 1)).height }) h.writes
    (.voted (L.block (k + 1)).height)
  unfold Replica.castVote Replica.persistVotedLocked
  rw [if_neg (Nat.not_le.mpr hlt)]
  dsimp only
  rw [hwrote, if_neg (by simp), heq]
  refine ⟨by rw [hid, hpriv]; rfl, fun e hc hb => ?_⟩
  exact { h with
    same := following_trans h.same rfl
    vHeight := rfl
    applied := by
      change appliedIn (e :: _ :: out) = _
      rw [appliedIn_cons, appliedIn_cons, hc, happ]
      exact (List.append_nil _).trans ((List.append_nil _).trans h.applied)
    votes := by
      change votesIn (e :: _ :: out) = _
      rw [votesIn_cons, votesIn_cons, hb, hvotes, ballots_succ]
      exact congrArg (· ++ [L.ballot n₀ (k + 1)]) ((List.append_nil _).trans h.votes)
    writes := hok h.writes }

variable (h : L.At n₀ (L.position n₀ k shelf) n)

include h

theorem At.considers (h₀ : L.Fresh n₀) (hk : k < L.length) :
    n.considers E (L.proposal (k + 1)) = true := by
  have hp := next hk
  obtain ⟨qc, hqc, hback⟩ := hp.certified
  refine considers_iff.mpr ⟨hp.addressed, ?_, ?_, ⟨L.block k, ?_, ?_⟩, ⟨set, ?_, ?_, hp.signed⟩, ?_,
    Or.inl ?_⟩
  · rw [h.blocks]
    exact notMem_tree hk (Nat.lt_succ_self k)
  · rw [h.bExec, h.heightOf hk.le (by dsimp only [position]; omega)]
    exact height_lt hk (by dsimp only [position]; omega)
  · rw [hp.parent]
    exact h.lookup hk.le (le_refl k)
  · unfold Replica.justified
    rw [hqc]
    dsimp only
    rw [h.qcValid h₀ hk.le (le_refl k) hback, hback.nodeID, hp.parent]
    simp [hp.above]
  · rw [hp.epoch]
    exact h.epochAndSetOfLocked h₀ hk.le hk
  · rw [h.leads h₀, hp.view]
    exact hp.sender
  · rw [h.view h₀]
    exact Nat.zero_le _
  · rw [hp.view]
    exact Nat.zero_le _

theorem At.safeNode (hk : k < L.length) : n.safeNode (L.block (k + 1)) = true := by
  obtain ⟨qc, hqc, hback⟩ := (next hk).certified
  have hqc : (L.block (k + 1)).justify = some qc := hqc
  unfold Replica.safeNode
  rw [h.bLock, h.lookup hk.le (by dsimp only [position]; omega)]
  dsimp only [position]
  rw [Bool.or_eq_true, hqc]
  by_cases hzero : k = 0
  · -- the lock is the parent
    left
    subst hzero
    obtain ⟨rest, hrest⟩ := path_eq_cons n (L.block 1)
    have hpar := parent_eq (L := L) hk
    unfold Replica.extendsLocked
    dsimp only
    rw [hrest, List.any_cons, hpar]
    simp [L.isRoot.id_eq, genesisID, noID]
  · right
    rw [decide_eq_true_eq, hback.height]
    exact height_lt hk.le (by omega)

/-- **The next proposal is accepted**: the follower climbs one block and votes, and the proposals
buffered under the block are handed back. -/
theorem At.accept (h₀ : L.Fresh n₀) (hk : k < L.length) :
    L.At n₀ (L.position n₀ (k + 1) (shelf.erase (L.block (k + 1)).id))
        (n.handleProposal E C (L.proposal (k + 1))).1 ∧
      (n.handleProposal E C (L.proposal (k + 1))).2 =
        (shelf.lookup (L.block (k + 1)).id).getD [] := by
  have hlocked : n.handleProposalLocked E C (L.proposal (k + 1)) =
      n.acceptProposal E (L.block (k + 1)) := by
    rw [handleProposalLocked_considers (h.considers h₀ hk),
      enterViewLockedEpoch_of_le (by rw [(next hk).view]; exact Nat.zero_le _)]
    rfl
  obtain ⟨hadd, hkids⟩ := h.addBlockLocked h₀ hk
  obtain ⟨hvote, hcast⟩ := At.castVote (L := L) hadd hk
  unfold Replica.handleProposal
  rw [hlocked]
  unfold Replica.acceptProposal
  rw [if_neg (by simp [h.panicked h₀]), if_neg (by simp [h.safeNode hk])]
  dsimp only
  rw [hvote]
  exact ⟨hcast _ rfl rfl, hkids⟩

theorem At.duplicate (hk : k ≤ L.length) (hj : j + 1 ≤ k) :
    n.handleProposal E C (L.proposal (j + 1)) = (n, []) := by
  have hp := next (L := L) (k := j) (by omega)
  have hmem : (L.proposal (j + 1)).block.id ∈ n.blocks :=
    GoMap.mem_iff_lookup.mpr ⟨_, h.lookup hk (k := j + 1) hj⟩
  unfold Replica.handleProposal Replica.handleProposalLocked
  rw [if_neg (not_not.mpr hp.addressed), if_pos hmem]
  rfl

theorem At.buffer (hkj : k < j) (hj : j < L.length) :
    L.At n₀ (L.position n₀ k (shelf.push (L.block j).id (L.proposal (j + 1))))
        (n.handleProposal E C (L.proposal (j + 1))).1 ∧
      (n.handleProposal E C (L.proposal (j + 1))).2 = [] := by
  have hp := next hj
  have hlocked : n.handleProposalLocked E C (L.proposal (j + 1)) =
      n.bufferProposal C (L.proposal (j + 1)) := by
    have hnew : (L.proposal (j + 1)).block.id ∉ n.blocks := by
      rw [h.blocks]
      exact notMem_tree (L := L) (j := j + 1) hj (by dsimp only [position]; omega)
    have habove : ¬ (L.proposal (j + 1)).block.height ≤ n.heightOf n.bExec := by
      rw [h.bExec, h.heightOf (by dsimp only [position]; omega) (by dsimp only [position]; omega)]
      exact Nat.not_le.mpr (height_lt (L := L) (j := j + 1) hj (by dsimp only [position]; omega))
    have hgap : n.blocks.lookup (L.proposal (j + 1)).block.parent = none := by
      rw [hp.parent, h.blocks]
      exact lookup_later hj.le hkj
    unfold Replica.handleProposalLocked
    rw [if_neg (not_not.mpr hp.addressed), if_neg hnew, if_neg habove, hgap]
  have hput : L.At n₀ (L.position n₀ k (shelf.push (L.block j).id (L.proposal (j + 1))))
      { n with pending := n.pending.push (L.proposal (j + 1)).block.parent (L.proposal (j + 1)) } := by
    rw [h.pending, hp.parent]
    exact { h with same := following_trans h.same rfl, pending := rfl }
  unfold Replica.handleProposal
  rw [hlocked]
  unfold Replica.bufferProposal
  dsimp only
  split
  · split
    · exact ⟨hput, rfl⟩
    · refine ⟨(hput.idle ?_).idle (Idle.emit rfl rfl), rfl⟩
      exact ⟨_, _, _, _, _, _, _, rfl, rfl, rfl, fun h => h⟩
  · split
    · exact ⟨hput, rfl⟩
    · refine ⟨(hput.idle ?_).idle (Idle.emit rfl rfl), rfl⟩
      exact ⟨_, _, _, _, _, _, _, rfl, rfl, rfl, fun h => h⟩

end Steps

end Line

/-! ## 4. `HandleProposal` and what it releases

The source recurses: a proposal that is accepted handles those it releases before it returns.  The
calls form a stack, and the induction is on the number of proposals on it and in the buffer. -/

namespace Replica

def buffered (n : Replica) : ℕ := (n.pending.values.map List.length).sum

/-- `HandleProposal` with its recursion.  The proposals released by one are handled before those
that wait already: the stack is that of the nested calls.  The clock is read again for each of them,
but only a proposal with an unknown parent looks at it. -/
def settle (E : Env) (C : Ctx) : (fuel : ℕ) → (stack : List Proposal) → Replica →
    Replica × List Proposal
  | 0, stack, n => (n, stack)
  | _ + 1, [], n => (n, [])
  | fuel + 1, p :: stack, n =>
    let (n, kids) := n.handleProposal E C p
    settle E C fuel (kids ++ stack) n

end Replica

/-- A proposal that arrives, the clock, and how the writes end. -/
structure Delivery where
  proposal : Proposal
  ctx : Ctx
  writes : List WriteOutcome

namespace Replica

/-- One proposal arrives; `none` if the calls it leads to do not end. -/
def receive (E : Env) (d : Delivery) (n : Replica) : Option Replica :=
  match settle E d.ctx (n.buffered + 1) [d.proposal] { n with writes := d.writes } with
  | (n, []) => some n
  | (_, _ :: _) => none

def follow (E : Env) (ds : List Delivery) (n : Replica) : Option Replica :=
  ds.foldlM (fun n d => n.receive E d) n

end Replica

namespace Line

variable {E : Env} {leader0 : String} {set : ValidatorSet} {root : Block}
  {L : Line E leader0 set root} {C : Ctx} {n₀ n : Replica} {seen : ℕ → Prop} {stack : List Proposal}
  {j k i : ℕ} {shelf : GoMap BlockID (List Proposal)}

/-- The follower stands at block `k`.  Every proposal heard so far is in the tree, or on the stack, or
buffered above the gap; what is on the stack hangs on the tree. -/
structure Climbing (L : Line E leader0 set root) (n₀ : Replica) (seen : ℕ → Prop)
    (stack : List Proposal) (k : ℕ) (shelf : GoMap BlockID (List Proposal)) (n : Replica) : Prop where
  stands : L.At n₀ (L.position n₀ k shelf) n
  bound : k ≤ L.length
  above : ∀ id, ∀ p ∈ (shelf.lookup id).getD [],
    ∃ j, k < j ∧ j < L.length ∧ id = (L.block j).id ∧ p = L.proposal (j + 1)
  stacked : ∀ p ∈ stack, ∃ j ≤ k, j < L.length ∧ p = L.proposal (j + 1)
  heard : ∀ j, seen j → j < L.length ∧ (j < k ∨ L.proposal (j + 1) ∈ stack ∨
    L.proposal (j + 1) ∈ (shelf.lookup (L.block j).id).getD [])

theorem block_inj (hi : i ≤ L.length) (hj : j ≤ L.length) (h : (L.block i).id = (L.block j).id) :
    i = j := by
  rcases Nat.lt_trichotomy i j with hlt | heq | hgt
  · exact absurd h (id_ne hj hlt)
  · exact heq
  · exact absurd h.symm (id_ne hi hgt)

theorem proposal_inj (hi : i < L.length) (hj : j < L.length)
    (h : L.proposal (i + 1) = L.proposal (j + 1)) : i = j := by
  have hid : (L.block (i + 1)).id = (L.block (j + 1)).id := by
    rw [block_succ, block_succ, h]
  exact Nat.succ_injective (block_inj hi hj hid)

theorem Climbing.drop (h : L.Climbing n₀ seen (L.proposal (j + 1) :: stack) k shelf n)
    (hj : j < k) : L.Climbing n₀ seen stack k shelf n where
  stands := h.stands
  bound := h.bound
  above := h.above
  stacked p hp := h.stacked p (List.mem_cons_of_mem _ hp)
  heard i hi := by
    obtain ⟨hlen, hwhere⟩ := h.heard i hi
    refine ⟨hlen, ?_⟩
    rcases hwhere with hlt | hstack | hshelf
    · exact Or.inl hlt
    · rcases List.mem_cons.mp hstack with heq | hrest
      · left
        rw [proposal_inj hlen (by have := h.bound; omega) heq]
        exact hj
      · exact Or.inr (Or.inl hrest)
    · exact Or.inr (Or.inr hshelf)

theorem Climbing.climb (h : L.Climbing n₀ seen (L.proposal (k + 1) :: stack) k shelf n)
    (h₀ : L.Fresh n₀) (hk : k < L.length) :
    L.Climbing n₀ seen ((n.handleProposal E C (L.proposal (k + 1))).2 ++ stack) (k + 1)
      (shelf.erase (L.block (k + 1)).id) (n.handleProposal E C (L.proposal (k + 1))).1 := by
  obtain ⟨hstands, hkids⟩ := h.stands.accept (C := C) h₀ hk
  rw [hkids]
  refine ⟨hstands, hk, fun id p hp => ?_, fun p hp => ?_, fun i hi => ?_⟩
  · rw [GoMap.lookup_erase_of] at hp
    split at hp
    · cases hp
    next hne =>
      obtain ⟨j, hkj, hj, rfl, rfl⟩ := h.above id p hp
      have : j ≠ k + 1 := fun heq => hne (by rw [heq])
      exact ⟨j, by omega, hj, rfl, rfl⟩
  · rcases List.mem_append.mp hp with hkid | hrest
    · obtain ⟨j, -, hj, hid, rfl⟩ := h.above _ p hkid
      have hj' := block_inj hk hj.le hid
      exact ⟨j, by omega, hj, rfl⟩
    · obtain ⟨j, hjk, hj, rfl⟩ := h.stacked p (List.mem_cons_of_mem _ hrest)
      exact ⟨j, by omega, hj, rfl⟩
  · obtain ⟨hlen, hwhere⟩ := h.heard i hi
    refine ⟨hlen, ?_⟩
    rcases hwhere with hlt | hstack | hshelf
    · exact Or.inl (by omega)
    · rcases List.mem_cons.mp hstack with heq | hrest
      · exact Or.inl (by have := proposal_inj hlen hk heq; omega)
      · exact Or.inr (Or.inl (List.mem_append_right _ hrest))
    · by_cases hnext : i = k + 1
      · subst hnext
        exact Or.inr (Or.inl (List.mem_append_left _ hshelf))
      · refine Or.inr (Or.inr ?_)
        rw [GoMap.lookup_erase_of, if_neg fun hid => hnext (block_inj hlen.le hk hid)]
        exact hshelf

/-- **The stack is worked off**, with as many calls as there are proposals on it and in the
buffer. -/
theorem Climbing.settle (h₀ : L.Fresh n₀) : ∀ (fuel : ℕ) {stack : List Proposal} {k : ℕ}
    {shelf : GoMap BlockID (List Proposal)} {n : Replica}, L.Climbing n₀ seen stack k shelf n →
    stack.length + n.buffered ≤ fuel →
    (n.settle E C fuel stack).2 = [] ∧
      ∃ k' shelf', L.Climbing n₀ seen [] k' shelf' (n.settle E C fuel stack).1
  | 0, stack, k, shelf, n, h, hfuel => by
    obtain rfl : stack = [] := List.length_eq_zero_iff.mp (by omega)
    exact ⟨rfl, k, shelf, h⟩
  | _ + 1, [], k, shelf, n, h, _ => ⟨rfl, k, shelf, h⟩
  | fuel + 1, p :: stack, k, shelf, n, h, hfuel => by
    obtain ⟨j, hjk, hj, rfl⟩ := h.stacked p List.mem_cons_self
    unfold Replica.settle
    rcases Nat.lt_or_eq_of_le hjk with hlt | rfl
    · rw [h.stands.duplicate h.bound hlt]
      refine (h.drop hlt).settle h₀ fuel ?_
      rw [List.length_cons] at hfuel
      omega
    · have hclimb := h.climb (C := C) h₀ hj
      refine hclimb.settle h₀ fuel ?_
      have hcount := GoMap.sum_lengths_erase shelf (L.block (j + 1)).id
      have hbefore : n.buffered = (shelf.values.map List.length).sum := by
        unfold Replica.buffered
        rw [h.stands.pending]
        rfl
      have hafter : (n.handleProposal E C (L.proposal (j + 1))).1.buffered =
          ((GoMap.values (shelf.erase (L.block (j + 1)).id)).map List.length).sum := by
        unfold Replica.buffered
        rw [hclimb.stands.pending]
        rfl
      have hkids := (h.stands.accept (C := C) h₀ hj).2
      rw [List.length_append, hkids, hafter]
      rw [List.length_cons, hbefore] at hfuel
      omega

theorem Climbing.receive (h : L.Climbing n₀ seen [] k shelf n) (h₀ : L.Fresh n₀) {d : Delivery}
    (hd : d.proposal = L.proposal (j + 1)) (hj : j < L.length)
    (hok : ∀ o ∈ d.writes, o = WriteOutcome.ok) :
    ∃ n' k' shelf', n.receive E d = some n' ∧
      L.Climbing n₀ (fun i => seen i ∨ i = j) [] k' shelf' n' := by
  have hstands : L.At n₀ (L.position n₀ k shelf) { n with writes := d.writes } :=
    { h.stands with same := following_trans h.stands.same rfl, writes := hok }
  suffices hdone : (Replica.settle E d.ctx (n.buffered + 1) [d.proposal]
      { n with writes := d.writes }).2 = [] ∧ ∃ k' shelf', L.Climbing n₀ (fun i => seen i ∨ i = j) []
        k' shelf' (Replica.settle E d.ctx (n.buffered + 1) [d.proposal]
          { n with writes := d.writes }).1 by
    obtain ⟨hempty, k', shelf', hclimb⟩ := hdone
    refine ⟨_, k', shelf', ?_, hclimb⟩
    unfold Replica.receive
    split
    next heq => rw [heq]
    next heq =>
      rw [heq] at hempty
      cases hempty
  rw [hd]
  rcases Nat.lt_or_ge k j with hgap | hon
  · -- above a gap: it goes to the buffer
    obtain ⟨hbuf, hkids⟩ := hstands.buffer (C := d.ctx) hgap hj
    have hstep : ∀ fuel, Replica.settle E d.ctx (fuel + 1) [L.proposal (j + 1)]
        { n with writes := d.writes } =
        ((({ n with writes := d.writes } : Replica).handleProposal E d.ctx (L.proposal (j + 1))).1,
          []) := by
      intro fuel
      unfold Replica.settle
      dsimp only
      rw [hkids]
      cases fuel <;> rfl
    rw [hstep]
    refine ⟨rfl, k, _, hbuf, h.bound, fun id p hp => ?_, fun p hp => absurd hp List.not_mem_nil, fun i hi => ?_⟩
    · rw [GoMap.lookup_push] at hp
      split at hp
      next hid =>
        rcases List.mem_append.mp hp with hold | hnew
        · rw [← hid] at hold
          exact h.above id p hold
        · exact ⟨j, hgap, hj, hid, List.mem_singleton.mp hnew⟩
      next => exact h.above id p hp
    · rcases hi with hi | rfl
      · obtain ⟨hlen, hwhere⟩ := h.heard i hi
        refine ⟨hlen, ?_⟩
        rcases hwhere with hlt | hstack | hshelf
        · exact Or.inl hlt
        · cases hstack
        · refine Or.inr (Or.inr ?_)
          rw [GoMap.lookup_push]
          split
          next hid =>
            rw [← hid]
            exact List.mem_append_left _ hshelf
          next => exact hshelf
      · refine ⟨hj, Or.inr (Or.inr ?_)⟩
        rw [GoMap.lookup_push, if_pos rfl]
        exact List.mem_append_right _ (List.mem_singleton.mpr rfl)
  · refine Climbing.settle h₀ _ (show L.Climbing n₀ _ [L.proposal (j + 1)] k shelf _ from
      ⟨hstands, h.bound, h.above, fun p hp => ?_, fun i hi => ?_⟩) ?_
    · exact ⟨j, hon, hj, List.mem_singleton.mp hp⟩
    · rcases hi with hi | rfl
      · obtain ⟨hlen, hwhere⟩ := h.heard i hi
        refine ⟨hlen, ?_⟩
        rcases hwhere with hlt | hstack | hshelf
        · exact Or.inl hlt
        · cases hstack
        · exact Or.inr (Or.inr hshelf)
      · exact ⟨hj, Or.inr (Or.inl (List.mem_singleton.mpr rfl))⟩
    · rw [List.length_singleton, Nat.add_comm]
      exact le_refl _

theorem Climbing.follow (h₀ : L.Fresh n₀) : ∀ (ds : List Delivery) {seen : ℕ → Prop} {k : ℕ}
    {shelf : GoMap BlockID (List Proposal)} {n : Replica}, L.Climbing n₀ seen [] k shelf n →
    (∀ d ∈ ds, (∃ j < L.length, d.proposal = L.proposal (j + 1)) ∧
      ∀ o ∈ d.writes, o = WriteOutcome.ok) →
    ∃ n' k' shelf', n.follow E ds = some n' ∧ L.Climbing n₀
      (fun i => seen i ∨ i < L.length ∧ ∃ d ∈ ds, d.proposal = L.proposal (i + 1)) [] k' shelf' n'
  | [], seen, k, shelf, n, h, _ =>
    ⟨n, k, shelf, rfl, { h with heard := fun i hi => h.heard i (hi.resolve_right (by simp)) }⟩
  | d :: ds, seen, k, shelf, n, h, hds => by
    obtain ⟨⟨j, hj, hd⟩, hok⟩ := hds d List.mem_cons_self
    obtain ⟨n₁, k₁, shelf₁, hn₁, h₁⟩ := h.receive h₀ hd hj hok
    obtain ⟨n', k', shelf', hn', h'⟩ := h₁.follow h₀ ds fun d' hd' =>
      hds d' (List.mem_cons_of_mem _ hd')
    refine ⟨n', k', shelf', ?_, { h' with heard := fun i hi => h'.heard i ?_ }⟩
    · unfold Replica.follow at hn' ⊢
      rw [List.foldlM_cons, hn₁]
      exact hn'
    · rcases hi with hi | ⟨hi, d', hd', heq⟩
      · exact Or.inl (Or.inl hi)
      · rcases List.mem_cons.mp hd' with rfl | hrest
        · exact Or.inl (Or.inr (proposal_inj hi hj (heq.symm.trans hd)))
        · exact Or.inr ⟨hi, d', hrest, heq⟩

/-- When everything was heard, nothing waits: the follower is at the end of the line. -/
theorem Climbing.arrived (h : L.Climbing n₀ seen [] k shelf n) (hall : ∀ j < L.length, seen j) :
    k = L.length := by
  by_contra hne
  have hk : k < L.length := lt_of_le_of_ne h.bound hne
  rcases (h.heard k (hall k hk)).2 with hlt | hstack | hshelf
  · exact lt_irrefl _ hlt
  · cases hstack
  · obtain ⟨j, hkj, hj, hid, -⟩ := h.above _ _ hshelf
    exact id_ne hj.le hkj hid

/-! ## 5. Two delivery sequences -/

/-- A delivery sequence of the line: its proposals and no others, each at least once; writes
succeed. -/
structure Delivers (L : Line E leader0 set root) (ds : List Delivery) : Prop where
  only : ∀ d ∈ ds, ∃ k < L.length, d.proposal = L.proposal (k + 1)
  every : ∀ k < L.length, ∃ d ∈ ds, d.proposal = L.proposal (k + 1)
  writes : ∀ d ∈ ds, ∀ o ∈ d.writes, o = WriteOutcome.ok

theorem Delivers.follow (h₀ : L.Fresh n₀) (h : L.Climbing n₀ (fun _ => False) [] 0 ∅ n)
    {ds : List Delivery} (hds : L.Delivers ds) :
    ∃ n' shelf, n.follow E ds = some n' ∧ L.At n₀ (L.position n₀ L.length shelf) n' := by
  obtain ⟨n', k, shelf, hn', hclimb⟩ := h.follow h₀ ds fun d hd => ⟨hds.only d hd, hds.writes d hd⟩
  obtain rfl := hclimb.arrived fun j hj => Or.inr ⟨hj, hds.every j hj⟩
  exact ⟨n', shelf, hn', hclimb.stands⟩

end Line

section Follower

variable {E : Env} {K : Setup} {n₀ : Replica} {set : ValidatorSet} {root : Block}

theorem Line.Fresh.start (L : Line E n₀.leader0 set root) (h₀ : K.fresh E = .ok n₀)
    (hset : n₀.sets.lookup 0 = some set) : L.Fresh (Host.start K n₀).node := by
  have hborn := Newborn.fresh h₀
  have hnone := Replica.Untouched.fresh h₀
  exact ⟨rfl, hset, hnone.view, hborn.gcBase, hnone.wantBase, hborn.parked, hborn.panicked,
    hborn.qcHigh.2⟩

theorem Line.Climbing.start (L : Line E n₀.leader0 set root) (h₀ : K.fresh E = .ok n₀)
    (hroot : n₀.blocks.lookup genesisID = some root) :
    L.Climbing (Host.start K n₀).node (fun _ => False) [] 0 ∅ (Host.start K n₀).node := by
  have hborn := Newborn.fresh h₀
  have hnone := Replica.Untouched.fresh h₀
  have hid := L.isRoot.id_eq
  have hblocks : n₀.blocks = L.tree 0 := by
    obtain ⟨g, -, hg⟩ := hborn.tree
    rw [hg, AList.lookup_insert] at hroot
    rw [hg, Option.some.inj hroot]
    rfl
  have hstands : L.At (Host.start K n₀).node (L.position (Host.start K n₀).node 0 ∅)
      (Host.start K n₀).node :=
    { same := rfl
      blocks := hblocks
      head := hnone.head.trans hid.symm
      qcHigh := rfl
      bLock := hborn.bLock.trans hid.symm
      bExec := hborn.bExec.trans hid.symm
      vHeight := hborn.vHeight.trans L.isRoot.height_eq.symm
      pending := hnone.pending
      applied := by
        change appliedIn n₀.out = []
        rw [hnone.out]
        rfl
      votes := by
        change votesIn n₀.out = []
        rw [hnone.out]
        rfl
      writes := by
        intro o ho
        change o ∈ n₀.writes at ho
        rw [hborn.writes] at ho
        cases ho }
  refine ⟨hstands, Nat.zero_le _, fun id p hp => ?_, fun p hp => absurd hp List.not_mem_nil,
    fun _ h => False.elim h⟩
  rw [AList.lookup_empty] at hp
  cases hp

/-- **The order of delivery does not matter.**  A follower that hears the proposals of a line, each
at least once and in any order, ends with the same tree, head, certificate, lock, executed prefix
and vote height, and has applied the same commands and sent the same votes in the same order. -/
theorem delivery_order_irrelevant (h₀ : K.fresh E = .ok n₀) (hset : n₀.sets.lookup 0 = some set)
    (hroot : n₀.blocks.lookup genesisID = some root) (L : Line E n₀.leader0 set root)
    {ds ds' : List Delivery} (hds : L.Delivers ds) (hds' : L.Delivers ds') :
    ∃ n n', (Host.start K n₀).node.follow E ds = some n ∧
      (Host.start K n₀).node.follow E ds' = some n' ∧
      n.blocks = n'.blocks ∧ n.head = n'.head ∧ n.qcHigh = n'.qcHigh ∧ n.bLock = n'.bLock ∧
      n.bExec = n'.bExec ∧ n.vHeight = n'.vHeight ∧ appliedIn n.out = appliedIn n'.out ∧
      votesIn n.out = votesIn n'.out := by
  have hfresh := Line.Fresh.start L h₀ hset
  have hstart := Line.Climbing.start L h₀ hroot
  obtain ⟨n, shelf, hn, h⟩ := hds.follow hfresh hstart
  obtain ⟨n', shelf', hn', h'⟩ := hds'.follow hfresh hstart
  exact ⟨n, n', hn, hn', h.blocks.trans h'.blocks.symm, h.head.trans h'.head.symm,
    h.qcHigh.trans h'.qcHigh.symm, h.bLock.trans h'.bLock.symm, h.bExec.trans h'.bExec.symm,
    h.vHeight.trans h'.vHeight.symm, h.applied.trans h'.applied.symm, h.votes.trans h'.votes.symm⟩

end Follower

/-! `L0` proposes block after block with one command.  `L1` hears four of the proposals, from the last
one down and some of them twice. -/

namespace Uniform

def env : Env := { plainEnv with sign := fun _ _ => List.replicate 64 0 }

def follower : Replica := Script.opened env (Script.setup "L1" 1)

/-- The four members, with their keys. -/
def members : ValidatorSet := (follower.sets.lookup 0).getD (newValidatorSet 0 [] ∅)

/-- The proposals of a chain whose blocks all have one command. -/
def proposal (cmd : Bytes) (k : ℕ) : Proposal where
  block := Script.blockAt (fun _ => cmd) (fun _ => 0) ["L0", "L1", "L2"] k
  sender := "L0"
  viewChanges := []
  sig := (four false).priv "L0"

theorem backed (cmd : Bytes) (k : ℕ) : ∃ qc, (proposal cmd (k + 1)).block.justify = some qc ∧
    qc.Backs env members (blockAt (genesisBlock follower.all).1 (proposal cmd) k) := by
  cases k with
  | zero => exact ⟨Script.root, rfl, rfl, rfl, rfl, fun h => absurd rfl h⟩
  | succ k =>
    refine ⟨Script.certify 0 (Script.idAt (fun _ => cmd) (k + 1)) ["L0", "L1", "L2"], rfl, rfl, rfl,
      rfl, fun _ => ?_⟩
    change members.quorum ≤ (Script.certify 0 genesisID ["L0", "L1", "L2"]).votes.len ∧
      ((Script.certify 0 genesisID ["L0", "L1", "L2"]).votes.entries.all fun e =>
        members.has e.1 && verifyInSet env members e.1 e.2 (.vote 0 genesisID e.1)) = true
    decide +kernel

theorem continues (cmd : Bytes) (k : ℕ) : (proposal cmd (k + 1)).Continues env follower.leader0
    members (blockAt (genesisBlock follower.all).1 (proposal cmd) k) where
  addressed := rfl
  view := rfl
  epoch := rfl
  parent := by cases k <;> rfl
  above := by
    cases k with
    | zero => exact Nat.zero_lt_one
    | succ k => exact Nat.lt_succ_self _
  plain := by cases cmd <;> rfl
  certified := backed cmd k
  sender := by
    change leaderOfSet follower.leader0 (some members) 0 = some "L0"
    decide +kernel
  signed := by
    change verifyInSet env members "L0" ((four false).priv "L0") (.vote 0 genesisID "") = true
    decide +kernel

def line (cmd : Bytes) (length : ℕ) :
    Line env follower.leader0 members (genesisBlock follower.all).1 where
  length := length
  proposal := proposal cmd
  isRoot := ⟨rfl, rfl, rfl, rfl, rfl⟩
  continues k _ := continues cmd k

/-- The proposals arrive in this order. -/
def arriving (cmd : Bytes) (order : List ℕ) : List Delivery :=
  order.map fun k => ⟨proposal cmd k, Move.still, []⟩

theorem delivers (cmd : Bytes) {length : ℕ} (order : List ℕ)
    (honly : ∀ k ∈ order, 1 ≤ k ∧ k ≤ length) (hevery : ∀ k < length, k + 1 ∈ order) :
    (line cmd length).Delivers (arriving cmd order) where
  only := by
    intro d hd
    obtain ⟨k, hk, rfl⟩ := List.mem_map.mp hd
    obtain ⟨hpos, hle⟩ := honly k hk
    exact ⟨k - 1, by change k - 1 < length; omega, by rw [Nat.sub_add_cancel hpos]; rfl⟩
  every k hk := ⟨_, List.mem_map.mpr ⟨k + 1, hevery k hk, rfl⟩, rfl⟩
  writes := by
    intro d hd o ho
    obtain ⟨k, -, rfl⟩ := List.mem_map.mp hd
    cases ho

end Uniform

/-- Four proposals, shuffled and some of them twice. -/
theorem delivery_order_irrelevant_four :
    ∃ n n', (Host.start (Script.setup "L1" 1) Uniform.follower).node.follow Uniform.env
        (Uniform.arriving [1] [4, 2, 4, 3, 1, 2]) = some n ∧
      (Host.start (Script.setup "L1" 1) Uniform.follower).node.follow Uniform.env
        (Uniform.arriving [1] [1, 2, 3, 4]) = some n' ∧
      n.bExec = n'.bExec ∧ votesIn n.out = votesIn n'.out := by
  obtain ⟨n, n', hn, hn', -, -, -, -, hexec, -, -, hvotes⟩ :=
    delivery_order_irrelevant (E := Uniform.env) (K := Script.setup "L1" 1)
      (show _ = Except.ok Uniform.follower from rfl) (by decide +kernel) (by decide +kernel)
      (Uniform.line [1] 4) (Uniform.delivers [1] [4, 2, 4, 3, 1, 2] (by decide) (by decide))
      (Uniform.delivers [1] [1, 2, 3, 4] (by decide) (by decide))
  exact ⟨n, n', hn, hn', hexec, hvotes⟩

end Cachey.HotStuff
