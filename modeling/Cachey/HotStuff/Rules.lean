/-
# What the handlers ask of an invariant

A handler is a row of tests with some bookkeeping behind them.  What a property of the state has to
meet to survive a call is the same for every property: it tolerates the bookkeeping, and it is kept
by the one thing the call is there for, once the tests have let it through.

* §1  The tests, under a name each, and what a handler does when they fail.
* §2  A vote, by cases.
* §3  A certificate, by cases: what `onNewQCLocked` and the chain rule do, and what a commit writes.
* §4  The worklist of an insertion: what every turn keeps, the loop keeps (`addBlockLoop_run`).
* §5  Bookkeeping (`Clerical`, `Tolerates`).  `ids` are the blocks that may be asked for.
* §6  One rule for each handler.
-/
import Cachey.HotStuff.Handlers

namespace Cachey.HotStuff

/-! ## 1. Tests -/

namespace Replica

/-- The tests of `handleProposalLocked` up to the entry into the block's view. -/
def considers (E : Env) (n : Replica) (p : Proposal) : Bool :=
  let b := p.block
  b.id = blockID b.view b.height b.parent b.cmd && b.id ∉ n.blocks &&
    n.heightOf n.bExec < b.height &&
    (match n.blocks.lookup b.parent with
     | none => false
     | some parent => n.justified E b parent) &&
    (match n.epochAndSetOfLocked E b with
     | (_, none) => false
     | (want, some set) => b.epoch = want &&
         leaderOfSet n.leader0 (some set) b.view = some p.sender &&
         verifyInSet E set p.sender p.sig p.signable) &&
    n.view ≤ b.view && (b.view ≤ n.view || n.proposalViewCertValidLocked E b.view p.viewChanges)

/-- The tests of `handleProposalLocked`, all passed: the replica inserts the block, and votes for
it if it is above `vHeight`. -/
def accepts (E : Env) (n : Replica) (p : Proposal) : Bool :=
  n.considers E p && n.safeNode p.block

/-- A fetched block is inserted at once. -/
def takesBlock (E : Env) (now : Nat) (bm : BlockMsg) (n : Replica) : Bool :=
  n.knownMemberLocked bm.sender && n.verify E bm.sender bm.sig bm.signable &&
    n.blockAdmitted E now bm.block && (bm.block.parent = noID || bm.block.parent ∈ n.blocks)

/-- A batch answers an outstanding request and is sound from its anchor up. -/
def takesBatch (E : Env) (now : Nat) (bb : BlockBatch) (n : Replica) : Bool :=
  (match n.syncReqs.lookup bb.requestID with
   | none => false
   | some req => req.peer = bb.sender && now ≤ req.deadline) &&
  n.verify E bb.sender bb.sig bb.signable &&
  (match bb.blocks with
   | [] => false
   | lowest :: _ =>
     match n.blocks.lookup lowest.parent with
     | none => false
     | some anchor => batchSound E n none anchor.height anchor.epoch bb.blocks)

/-- A view change that `HandleViewChange` counts. -/
def counts (E : Env) (vc : ViewChange) (n : Replica) : Bool :=
  vc.epoch = n.epoch &&
  (match n.sets.lookup n.epoch with
   | none => false
   | some set =>
     set.has vc.sender && n.leaderOfEpoch n.epoch vc.view = some n.id &&
       verifyInSet E set vc.sender vc.sig vc.signable && n.view ≤ vc.view)

/-- With the view changes it has, the replica becomes or is the leader of `view`. -/
def joins (view : Nat) (n : Replica) : Bool :=
  (match n.sets.lookup n.epoch with
   | none => false
   | some set =>
     n.leaderOfEpoch n.epoch view = some n.id && set.quorum ≤ (n.vcsOf view).len) &&
  (n.view < view || (n.view = view && n.leader = n.id))

/-- The certificate the leader of `view` adopts from the view changes it has: a reported one
above `qcHigh`, of a block in the tree. -/
def adopting (E : Env) (C : Ctx) (view : Nat) (n : Replica) : List QC :=
  let high := n.highestReported E (C.scan.order (n.vcsOf view).values)
  if n.joins view ∧ n.qcHigh.height < high.height ∧ high.nodeID ∈ n.blocks then [high] else []

/-- The state in which `StartViewChange` has signed its view change, and that view change. -/
def announce (E : Env) (n : Replica) : Option (Replica × ViewChange) :=
  let again := n.view = 0 ∨ n.view ∈ n.vcSent
  let target := if again then u64 (n.view + 1) else n.view
  let n := if again then n.enterViewLocked target else n
  if n.panicked then none
  else if target = 0 ∨ target ∈ n.vcSent then none
  else
    let n := { n with vcSent := target :: n.vcSent }
    let (n, sig) := n.sign E (.viewChange target n.epoch (some n.qcHigh) n.id)
    some (n, { view := target, epoch := n.epoch, highQC := some n.qcHigh, sender := n.id,
               sig := sig })

/-- The proposal makes the replica ask for its parent: the parent is unknown, and no request for it
is under way. -/
def asks (C : Ctx) (p : Proposal) (n : Replica) : Bool :=
  let b := p.block
  b.id = blockID b.view b.height b.parent b.cmd && b.id ∉ n.blocks &&
    n.heightOf n.bExec < b.height && b.parent ∉ n.blocks &&
    (if b.height > u64 (n.heightOf n.head + 3) then ! n.syncInFlightLocked C.now b.parent
     else ! n.fetchInFlightLocked C.now b.parent)

/-- The outstanding request that a batch answers authentically and in time. -/
def answers (E : Env) (now : Nat) (bb : BlockBatch) (n : Replica) : Option SyncRequest :=
  (n.syncReqs.lookup bb.requestID).filter fun req =>
    req.peer = bb.sender && now ≤ req.deadline && n.verify E bb.sender bb.sig bb.signable

/-- The block of a reported certificate above `qcHigh`: what a new leader may have to fetch. -/
def basing (E : Env) (C : Ctx) (view : Nat) (n : Replica) : List BlockID :=
  let high := n.highestReported E (C.scan.order (n.vcsOf view).values)
  if n.qcHigh.height < high.height then [high.nodeID] else []

end Replica

section Tests

variable {E : Env} {C : Ctx} {n : Replica} {p : Proposal} {vc : ViewChange}

theorem considers_iff : n.considers E p = true ↔
    p.block.id = blockID p.block.view p.block.height p.block.parent p.block.cmd ∧
      p.block.id ∉ n.blocks ∧ n.heightOf n.bExec < p.block.height ∧
      (∃ parent, n.blocks.lookup p.block.parent = some parent ∧
        n.justified E p.block parent = true) ∧
      (∃ set, n.epochAndSetOfLocked E p.block = (p.block.epoch, some set) ∧
        leaderOfSet n.leader0 (some set) p.block.view = some p.sender ∧
        verifyInSet E set p.sender p.sig p.signable = true) ∧
      n.view ≤ p.block.view ∧ (p.block.view ≤ n.view ∨
        n.proposalViewCertValidLocked E p.block.view p.viewChanges = true) := by
  rcases hder : n.epochAndSetOfLocked E p.block with ⟨want, _ | set⟩ <;>
    rcases hpar : n.blocks.lookup p.block.parent with _ | parent <;>
      simp [Replica.considers, hder, hpar, and_assoc, eq_comm (a := p.block.epoch)]

/-- A proposal that passes the tests takes the replica into its view. -/
theorem handleProposalLocked_considers (h : n.considers E p = true) :
    n.handleProposalLocked E C p =
      (n.enterViewLockedEpoch p.block.view p.block.epoch).acceptProposal E p.block := by
  obtain ⟨hid, hfresh, hexec, ⟨parent, hpar, hjust⟩, ⟨set, hder, hl, hver⟩, hview, hcert⟩ :=
    considers_iff.mp h
  unfold Replica.handleProposalLocked
  rw [if_neg (not_not.mpr hid), if_neg hfresh, if_neg (by omega), hpar]
  dsimp only
  rw [if_neg (not_not.mpr hjust), hder]
  dsimp only
  rw [if_neg (not_not.mpr rfl), hl]
  dsimp only
  rw [if_neg (not_or.mpr ⟨not_not.mpr rfl, not_not.mpr hver⟩), if_neg (by omega), if_neg]
  rintro ⟨hgt, hno⟩
  exact hcert.elim (fun hle => by omega) hno

/-- Any other one is dropped, or buffered when its parent is missing; computing the leader may
panic. -/
theorem handleProposalLocked_ignored (h : n.considers E p = false) :
    n.handleProposalLocked E C p = (n, {}) ∨ n.handleProposalLocked E C p = (n.crash, {}) ∨
      n.handleProposalLocked E C p = n.bufferProposal C p ∧
        p.block.id = blockID p.block.view p.block.height p.block.parent p.block.cmd ∧
        p.block.id ∉ n.blocks ∧ n.heightOf n.bExec < p.block.height ∧ p.block.parent ∉ n.blocks := by
  unfold Replica.handleProposalLocked
  dsimp only
  split
  · exact Or.inl rfl
  next hid =>
  have hid := not_not.mp hid
  split
  · exact Or.inl rfl
  next hfresh =>
  split
  · exact Or.inl rfl
  next hexec =>
  split
  next hparent =>
    refine Or.inr (Or.inr ⟨rfl, hid, hfresh, by omega, fun hin => ?_⟩)
    obtain ⟨b, hb⟩ := GoMap.mem_iff_lookup.mp hin
    exact absurd (hparent.symm.trans hb) (by simp)
  next parent hparent =>
  split
  · exact Or.inl rfl
  next hjust =>
  split
  · exact Or.inl rfl
  next want set hset =>
  split
  · exact Or.inl rfl
  next hwant =>
  split
  · exact Or.inr (Or.inl rfl)
  next l hl =>
  split
  · exact Or.inl rfl
  next hsender =>
  split
  · exact Or.inl rfl
  next hview =>
  split
  · exact Or.inl rfl
  next hcert =>
  have hwant : p.block.epoch = want := by simpa using hwant
  have hsender' : p.sender = l ∧ verifyInSet E set p.sender p.sig p.signable = true := by
    simpa [not_or] using hsender
  have hc : p.block.view ≤ n.view ∨
      n.proposalViewCertValidLocked E p.block.view p.viewChanges = true := by
    rcases Nat.lt_or_ge n.view p.block.view with hlt | hge
    · exact Or.inr (by_contra fun hno => hcert ⟨hlt, hno⟩)
    · exact Or.inl hge
  have hcon : n.considers E p = true := considers_iff.mpr
    ⟨hid, hfresh, by omega, ⟨parent, hparent, by simpa using hjust⟩,
      ⟨set, by rw [hset, hwant], by rw [hl, hsender'.1], hsender'.2⟩, by omega, hc⟩
  rw [h] at hcon
  exact Bool.noConfusion hcon

/-- Entering a view touches the view, its leader, the activity flag and the panic flag. -/
theorem enterViewLockedEpoch_eq (view epoch : ℕ) (n : Replica) : ∃ v l a k,
    n.enterViewLockedEpoch view epoch =
      { n with view := v, leader := l, active := a, panicked := k } := by
  unfold Replica.enterViewLockedEpoch
  split
  · exact ⟨n.view, n.leader, n.active, n.panicked, rfl⟩
  · split
    · exact ⟨view, n.leader, n.active, true, rfl⟩
    next l _ => exact ⟨view, l, false, n.panicked, rfl⟩

/-- Storing a view change, by cases: computing the leader may panic. -/
theorem addVC_eq (vc : ViewChange) (n : Replica) :
    n.addVC vc = n ∨ n.addVC vc = n.crash ∨ n.addVC vc =
      { n with vcs := n.vcs.insert vc.view ((n.vcsOf vc.view).insert vc.sender vc) } := by
  unfold Replica.addVC
  split
  · exact Or.inl rfl
  split
  · exact Or.inl rfl
  split
  · exact Or.inr (Or.inl rfl)
  split
  · exact Or.inl rfl
  · exact Or.inr (Or.inr rfl)

theorem handleViewChange_eq (h : n.counts E vc = true) :
    n.handleViewChange E C vc = ((n.addVC vc).maybeActivateLocked E C vc.view).1.sendFetch
      ((n.addVC vc).maybeActivateLocked E C vc.view).2 := by
  unfold Replica.counts at h
  cases hset : n.sets.lookup n.epoch with
  | none => simp [hset] at h
  | some set =>
    simp only [hset, Bool.and_eq_true, decide_eq_true_eq] at h
    obtain ⟨hep, ⟨⟨hhas, hl⟩, hver⟩, hview⟩ := h
    unfold Replica.handleViewChange
    simp only [hep, hset, hhas, hl, hver, ne_eq, not_true_eq_false, if_false, false_or]
    rw [if_neg (by omega)]

theorem handleViewChange_ignored (h : n.counts E vc = false) :
    n.handleViewChange E C vc = n ∨ (n.handleViewChange E C vc = n.crash ∧ vc.epoch = n.epoch ∧
      ∃ set, n.sets.lookup n.epoch = some set ∧ set.has vc.sender = true ∧
        n.leaderOfEpoch n.epoch vc.view = none) := by
  unfold Replica.handleViewChange
  split
  · exact Or.inl rfl
  next hepoch =>
  split
  · exact Or.inl rfl
  next set hset =>
  split
  · exact Or.inl rfl
  next hhas =>
  split
  next hl =>
    exact Or.inr ⟨rfl, by simpa using hepoch, set, hset, by simpa using hhas, hl⟩
  next l hl =>
  split
  · exact Or.inl rfl
  next hid =>
  split
  · exact Or.inl rfl
  next hver =>
    have hver := not_or.mp hver
    have hid : n.id = l := by simpa using hid
    have hcounts : n.counts E vc = true := by
      unfold Replica.counts
      simp only [hset, hl, hid, Bool.and_eq_true, decide_eq_true_eq, and_true]
      exact ⟨by simpa using hepoch, ⟨by simpa using hhas, by simpa using hver.1⟩, by omega⟩
    rw [h] at hcounts
    exact Bool.noConfusion hcounts

theorem adoptQC_eq (high : QC) (n : Replica) : n.adoptQC E high = { n with qcHigh := high } := by
  unfold Replica.adoptQC Replica.onNewQCLocked
  split
  · rfl
  · simp

/-- A batch that is taken: its lowest block stands on a block of the tree, and it is sound from
there up. -/
theorem of_takesBatch {now : ℕ} {bb : BlockBatch} (h : n.takesBatch E now bb = true) :
    ∃ lowest rest anchor, bb.blocks = lowest :: rest ∧ n.blocks.lookup lowest.parent = some anchor ∧
      Replica.batchSound E n none anchor.height anchor.epoch bb.blocks = true := by
  have h := (Bool.and_eq_true_iff.mp h).2
  split at h
  · cases h
  next lowest rest hbb =>
    split at h
    · cases h
    next anchor hanchor => exact ⟨lowest, rest, anchor, hbb, hanchor, h⟩

end Tests

/-! ## 2. A vote -/

/-- A vote at the given height by a member of `set`, with a signature by its key. -/
def Vote.valid (E : Env) (set : ValidatorSet) (height : ℕ) (v : Vote) : Bool :=
  set.has v.voter && v.height = height && (match set.publicKeys.lookup v.voter with
    | none => false
    | some pub => E.verify pub v.signable v.sig)

namespace Replica

variable {E : Env} {n : Replica} {v : Vote}

/-- The signatures recorded for a block. -/
def votesOn (n : Replica) (id : BlockID) : GoMap String Bytes := (n.votes.lookup id).getD ∅

/-- The replica with one more signature recorded. -/
def recordVote (v : Vote) (n : Replica) : Replica :=
  { n with votes := n.votes.insert v.nodeID ((n.votesOn v.nodeID).insert v.voter v.sig) }

/-- The certificate made of the signatures recorded for a block. -/
def certificate (blk : Block) (id : BlockID) (n : Replica) : QC :=
  { newQCEpoch blk.epoch id blk.height with votes := n.votesOn id }

theorem votesOn_recordVote (v : Vote) (n : Replica) (id : BlockID) :
    (n.recordVote v).votesOn id =
      if id = v.nodeID then (n.votesOn v.nodeID).insert v.voter v.sig else n.votesOn id := by
  unfold votesOn recordVote
  rw [GoMap.lookup_insert_of]
  split <;> rfl

/-- `voteForBlockLocked`: the certificate formed by the vote that completes the quorum. -/
def voteFolds (E : Env) (v : Vote) (n : Replica) : List (Replica × QC) :=
  match n.blocks.lookup v.nodeID with
  | none => []
  | some blk =>
    match n.sets.lookup blk.epoch with
    | none => []
    | some set =>
      if ¬ set.has v.voter ∨ v.height ≠ blk.height then []
      else match set.publicKeys.lookup v.voter with
        | none => []
        | some pub =>
          if ¬ E.verify pub v.signable v.sig then []
          else
            let setVotes := (n.votes.lookup v.nodeID).getD ∅
            if v.voter ∈ setVotes then []
            else
              let setVotes : GoMap String Bytes := setVotes.insert v.voter v.sig
              let n := { n with votes := n.votes.insert v.nodeID setVotes }
              if setVotes.len < set.quorum ∨ v.nodeID ∈ n.qcFormed then []
              else [({ n with qcFormed := v.nodeID :: n.qcFormed },
                { newQCEpoch blk.epoch v.nodeID blk.height with votes := setVotes })]

/-- What becomes of a vote. -/
inductive Counted (E : Env) (v : Vote) (n : Replica) : Replica → List QC → Prop
  /-- its block or the set is unknown, it is not valid, or its voter has voted -/
  | dropped (h : ∀ blk set, n.blocks.lookup v.nodeID = some blk →
      n.sets.lookup blk.epoch = some set → v.valid E set blk.height = true →
        v.voter ∈ n.votesOn v.nodeID) : Counted E v n n []
  | counted {blk : Block} {set : ValidatorSet} (hblk : n.blocks.lookup v.nodeID = some blk)
      (hset : n.sets.lookup blk.epoch = some set) (hvalid : v.valid E set blk.height = true)
      (hnew : v.voter ∉ n.votesOn v.nodeID)
      (hshort : ((n.recordVote v).votesOn v.nodeID).len < set.quorum ∨ v.nodeID ∈ n.qcFormed) :
      Counted E v n (n.recordVote v) []
  | completed {blk : Block} {set : ValidatorSet} (hblk : n.blocks.lookup v.nodeID = some blk)
      (hset : n.sets.lookup blk.epoch = some set) (hvalid : v.valid E set blk.height = true)
      (hnew : v.voter ∉ n.votesOn v.nodeID)
      (hfull : set.quorum ≤ ((n.recordVote v).votesOn v.nodeID).len) (hfirst : v.nodeID ∉ n.qcFormed) :
      Counted E v n ({ n.recordVote v with qcFormed := v.nodeID :: n.qcFormed }.onNewQCLocked E
        ((n.recordVote v).certificate blk v.nodeID)) [(n.recordVote v).certificate blk v.nodeID]

theorem voteForBlockLocked_counted (v : Vote) (n : Replica) :
    Counted E v n (n.voteForBlockLocked E v) ((n.voteFolds E v).map (·.2)) := by
  have hrec : (n.recordVote v).votesOn v.nodeID = (n.votesOn v.nodeID).insert v.voter v.sig := by
    rw [votesOn_recordVote, if_pos rfl]
  unfold voteForBlockLocked voteFolds
  cases hblk : n.blocks.lookup v.nodeID with
  | none => exact .dropped fun blk set h => absurd (hblk.symm.trans h) (by simp)
  | some blk =>
    dsimp only
    cases hset : n.sets.lookup blk.epoch with
    | none =>
      refine .dropped fun blk' set hblk' hset' => ?_
      obtain rfl := Option.some.inj (hblk.symm.trans hblk')
      exact absurd (hset.symm.trans hset') (by simp)
    | some set =>
      dsimp only
      -- the tests of the code are those of `Vote.valid`
      have hdrop : ∀ hbad : v.valid E set blk.height = false, Counted E v n n [] := by
        intro hbad
        refine .dropped fun blk' set' hblk' hset' hvalid => ?_
        obtain rfl := Option.some.inj (hblk.symm.trans hblk')
        obtain rfl := Option.some.inj (hset.symm.trans hset')
        rw [hbad] at hvalid
        cases hvalid
      by_cases hmember : ¬ set.has v.voter = true ∨ v.height ≠ blk.height
      · rw [if_pos hmember, if_pos hmember]
        refine hdrop ?_
        unfold Vote.valid
        rcases hmember with h | h <;> simp [h]
      rw [if_neg hmember, if_neg hmember]
      obtain ⟨hhas, hheight⟩ := not_or.mp hmember
      cases hkey : set.publicKeys.lookup v.voter with
      | none => exact hdrop (by simp [Vote.valid, hkey])
      | some pub =>
        dsimp only
        by_cases hver : ¬ E.verify pub v.signable v.sig = true
        · rw [if_pos hver, if_pos hver]
          exact hdrop (by simp [Vote.valid, hkey, hver])
        rw [if_neg hver, if_neg hver]
        have hvalid : v.valid E set blk.height = true := by
          simp only [Vote.valid, hkey, not_not.mp hhas, not_not.mp hheight, not_not.mp hver,
            decide_true, Bool.and_self]
        by_cases hold : v.voter ∈ n.votesOn v.nodeID
        · have hold' : v.voter ∈ (n.votes.lookup v.nodeID).getD ∅ := hold
          rw [if_pos hold', if_pos hold']
          exact .dropped fun _ _ _ _ _ => hold
        have hold' : ¬ v.voter ∈ (n.votes.lookup v.nodeID).getD ∅ := hold
        rw [if_neg hold', if_neg hold']
        have hlen : GoMap.len (((n.votes.lookup v.nodeID).getD ∅).insert v.voter v.sig) =
            ((n.recordVote v).votesOn v.nodeID).len := by
          rw [hrec]
          rfl
        rw [hlen]
        by_cases hshort : ((n.recordVote v).votesOn v.nodeID).len < set.quorum ∨
            v.nodeID ∈ n.qcFormed
        · rw [if_pos hshort, if_pos hshort]
          exact .counted hblk hset hvalid hold hshort
        · rw [if_neg hshort, if_neg hshort]
          obtain ⟨hfull, hfirst⟩ := not_or.mp hshort
          have hcert : ({ newQCEpoch blk.epoch v.nodeID blk.height with
              votes := ((n.votes.lookup v.nodeID).getD ∅).insert v.voter v.sig } : QC) =
              (n.recordVote v).certificate blk v.nodeID := by
            unfold certificate
            rw [hrec]
            rfl
          rw [List.map_singleton]
          rw [hcert]
          exact .completed hblk hset hvalid hold (Nat.le_of_not_lt hfull) hfirst

end Replica

/-- A property that a vote keeps: if it is kept when the vote is recorded, and when the certificate
it completes is folded. -/
theorem voteForBlockLocked_keeps {E : Env} {P : Replica → Prop} {n : Replica} {v : Vote} (hn : P n)
    (hrecord : ∀ blk set, n.blocks.lookup v.nodeID = some blk → n.sets.lookup blk.epoch = some set →
      v.valid E set blk.height = true → P (n.recordVote v))
    (hfold : ∀ blk set, n.blocks.lookup v.nodeID = some blk → n.sets.lookup blk.epoch = some set →
      v.valid E set blk.height = true → set.quorum ≤ ((n.recordVote v).votesOn v.nodeID).len →
      P ({ n.recordVote v with qcFormed := v.nodeID :: n.qcFormed }.onNewQCLocked E
        ((n.recordVote v).certificate blk v.nodeID))) :
    P (n.voteForBlockLocked E v) := by
  have h := Replica.voteForBlockLocked_counted (E := E) v n
  generalize n.voteForBlockLocked E v = m, (n.voteFolds E v).map (·.2) = qcs at h
  cases h with
  | dropped _ => exact hn
  | counted hblk hset hvalid _ _ => exact hrecord _ _ hblk hset hvalid
  | completed hblk hset hvalid _ hfull _ => exact hfold _ _ hblk hset hvalid hfull

/-! ## 3. A certificate -/

/-- The effects an invariant may speak of: votes, durable writes and executions. -/
def Effect.isKey : Effect → Bool
  | .signed (.vote _ _ _) => true
  | .wrote _ _ => true
  | .exec _ => true
  | _ => false

theorem filterMap_isKey {α : Type} {f : Effect → Option α} {out out' more : List Effect}
    (hf : ∀ e, e.isKey = false → f e = none)
    (h : out'.filter Effect.isKey = more ++ out.filter Effect.isKey) :
    out'.filterMap f = more.filterMap f ++ out.filterMap f := by
  have hkey : ∀ l : List Effect, (l.filter Effect.isKey).filterMap f = l.filterMap f := by
    intro l
    rw [List.filterMap_filter]
    refine List.filterMap_congr fun e _ => ?_
    cases he : e.isKey <;> simp [hf e, he]
  rw [← hkey out', h, List.filterMap_append, hkey]

/-- The sets and the current epoch after a committed block, `activateTransitionLocked` on the two
fields it reads and writes. -/
def activation (E : Env) (s : GoMap Nat ValidatorSet × Nat) (b : Block) :
    GoMap Nat ValidatorSet × Nat :=
  if ¬ isMembershipBlock E b then s
  else match membershipOf E b, s.1.lookup b.epoch with
    | some mc, some old =>
      match old.apply mc with
      | none => s
      | some ns => (s.1.insert ns.epoch ns, ns.epoch)
    | _, _ => s

section Folds

variable {E : Env}

theorem activateTransitionLocked_eq (n : Replica) (b : Block) :
    n.activateTransitionLocked E b = { n with
      sets := (activation E (n.sets, n.epoch) b).1
      epoch := (activation E (n.sets, n.epoch) b).2 } := by
  unfold Replica.activateTransitionLocked activation
  by_cases hb : isMembershipBlock E b = true
  · rw [if_neg (not_not.mpr hb), if_neg (not_not.mpr hb)]
    cases membershipOf E b with
    | none => rfl
    | some mc =>
      cases n.sets.lookup b.epoch with
      | none => rfl
      | some old =>
        dsimp only
        cases old.apply mc <;> rfl
  · rw [if_pos hb, if_pos hb]

theorem persistRecordLocked_eq (pe : PersistEntry) (n : Replica) :
    ∃ w o, n.persistRecordLocked pe = { n with writes := w, out := o } := by
  unfold Replica.persistRecordLocked Replica.persistLocked
  split
  · exact ⟨n.writes, n.out, rfl⟩
  · exact ⟨n.writes.tail, _, rfl⟩

theorem markAppliedLocked_eq (id : BlockID) (n : Replica) :
    ∃ a w o, n.markAppliedLocked id = { n with applied := a, notify := w, out := o } ∧
      o.filter Effect.isKey = n.out.filter Effect.isKey := by
  unfold Replica.markAppliedLocked
  split
  · exact ⟨n.applied, n.notify, n.out, rfl, rfl⟩
  · dsimp only
    split
    · exact ⟨id :: n.applied, n.notify.erase id, .wake id :: n.out, rfl, rfl⟩
    · exact ⟨id :: n.applied, n.notify, n.out, rfl, rfl⟩

theorem execBlock_eq (n : Replica) (b : Block) :
    ∃ a w o, n.execBlock E b = { n with
        sets := (activation E (n.sets, n.epoch) b).1
        epoch := (activation E (n.sets, n.epoch) b).2
        bExec := b.id, applied := a, notify := w, out := o } ∧
      o.filter Effect.isKey = .exec b.id :: n.out.filter Effect.isKey := by
  unfold Replica.execBlock
  dsimp only
  have happly : ∃ o₀, (if b.cmd ≠ [] ∧ b.id ≠ genesisID then n.emit (.apply b) else n) =
      { n with out := o₀ } ∧ o₀.filter Effect.isKey = n.out.filter Effect.isKey := by
    split
    · exact ⟨.apply b :: n.out, rfl, rfl⟩
    · exact ⟨n.out, rfl, rfl⟩
  obtain ⟨o₀, h₀, hk₀⟩ := happly
  rw [h₀, activateTransitionLocked_eq]
  obtain ⟨a, w, o, h, hk⟩ := markAppliedLocked_eq b.id
    (Replica.emit (.exec b.id) { n with
      sets := (activation E (n.sets, n.epoch) b).1
      epoch := (activation E (n.sets, n.epoch) b).2
      bExec := b.id, out := o₀ })
  refine ⟨a, w, o, h, hk.trans ?_⟩
  change List.filter _ (.exec b.id :: o₀) = _
  rw [List.filter_cons_of_pos rfl, hk₀]

theorem foldl_execBlock_eq : ∀ (l : List Block) (n : Replica),
    ∃ a w o, l.foldl (Replica.execBlock E) n = { n with
        sets := (l.foldl (activation E) (n.sets, n.epoch)).1
        epoch := (l.foldl (activation E) (n.sets, n.epoch)).2
        bExec := (l.map (·.id)).getLastD n.bExec, applied := a, notify := w, out := o } ∧
      o.filter Effect.isKey =
        (l.map fun b => .exec b.id).reverse ++ n.out.filter Effect.isKey
  | [], n => ⟨n.applied, n.notify, n.out, rfl, rfl⟩
  | b :: l, n => by
    obtain ⟨a, w, o, h, hk⟩ := execBlock_eq (E := E) n b
    obtain ⟨a', w', o', h', hk'⟩ := foldl_execBlock_eq l (n.execBlock E b)
    refine ⟨a', w', o', ?_, ?_⟩
    · rw [List.foldl_cons, h', h]
      cases l <;> rfl
    · rw [hk', h]
      simp [hk]

/-- The blocks a commit of `gp` executes, oldest first. -/
def Replica.span (n : Replica) (gp : Block) : List Block :=
  ((n.path gp).takeWhile fun b => b.id ≠ n.bExec).reverse

theorem path_eq_cons (n : Replica) (b : Block) : ∃ rest, n.path b = b :: rest := ⟨_, rfl⟩

/-- A commit: the span above `bExec` is executed, `bExec` is its top, and the watermark is
recorded. -/
theorem commitUpToLocked_eq (n : Replica) {gp : Block} (hne : gp.id ≠ n.bExec) :
    ∃ a w o, n.commitUpToLocked E gp = { n with
        sets := ((n.span gp).foldl (activation E) (n.sets, n.epoch)).1
        epoch := ((n.span gp).foldl (activation E) (n.sets, n.epoch)).2
        bExec := gp.id, applied := a, notify := w, out := o }.persistRecordLocked
          (.applied gp.id) ∧
      o.filter Effect.isKey =
        ((n.span gp).map fun b => .exec b.id).reverse ++ n.out.filter Effect.isKey := by
  have hlast : ((n.span gp).map (·.id)).getLastD n.bExec = gp.id := by
    obtain ⟨rest, hrest⟩ := path_eq_cons n gp
    unfold Replica.span
    rw [hrest, List.takeWhile_cons_of_pos (by simpa using hne)]
    simp
  obtain ⟨a, w, o, h, hk⟩ := foldl_execBlock_eq (E := E) (n.span gp) n
  refine ⟨a, w, o, ?_, hk⟩
  rw [hlast] at h
  change ((n.span gp).foldl (Replica.execBlock E) n).persistRecordLocked
    (.applied ((n.span gp).foldl (Replica.execBlock E) n).bExec) = _
  rw [h]

theorem chainRule_cases (n : Replica) (c : Block) :
    (n.blocks.lookup c.parent = none ∧ c.parent = noID ∧ n.chainRule E c = n) ∨
    (n.blocks.lookup c.parent = none ∧ c.parent ≠ noID ∧ n.chainRule E c = n.crash) ∨
    (∃ p, n.blocks.lookup c.parent = some p ∧ oneChainedBy p c = false ∧ n.chainRule E c = n) ∨
    (∃ p, n.blocks.lookup c.parent = some p ∧ oneChainedBy p c = true ∧
      (∀ gp, n.blocks.lookup p.parent = some gp → oneChainedBy gp p = true →
        gp.height ≤ n.heightOf n.bExec) ∧
      n.chainRule E c = n.raiseLock p) ∨
    (∃ p gp, n.blocks.lookup c.parent = some p ∧ oneChainedBy p c = true ∧
      n.blocks.lookup p.parent = some gp ∧ oneChainedBy gp p = true ∧
      n.heightOf n.bExec < gp.height ∧
      n.chainRule E c = (n.raiseLock p).commitUpToLocked E gp) := by
  have hraise : ∀ p : Block, (n.raiseLock p).blocks = n.blocks ∧
      (n.raiseLock p).heightOf (n.raiseLock p).bExec = n.heightOf n.bExec := by
    intro p
    unfold Replica.raiseLock
    split <;> exact ⟨rfl, rfl⟩
  unfold Replica.chainRule
  cases hp : n.blocks.lookup c.parent with
  | none =>
    by_cases hno : c.parent = noID
    · exact Or.inl ⟨rfl, hno, by simp [hno]⟩
    · exact Or.inr (Or.inl ⟨rfl, hno, by simp [hno]⟩)
  | some p =>
    right; right
    cases hone : oneChainedBy p c with
    | false => exact Or.inl ⟨p, rfl, hone, by simp [hone]⟩
    | true =>
      right
      simp only [hone, not_true_eq_false, if_false]
      rw [(hraise p).1, (hraise p).2]
      cases hg : n.blocks.lookup p.parent with
      | none =>
        exact Or.inl ⟨p, rfl, hone, fun gp h => absurd (hg.symm.trans h) (by simp), rfl⟩
      | some gp =>
        by_cases hc : oneChainedBy gp p = true ∧ n.heightOf n.bExec < gp.height
        · exact Or.inr ⟨p, gp, rfl, hone, hg, hc.1, hc.2, if_pos hc⟩
        · refine Or.inl ⟨p, rfl, hone, fun gp' h' h₁ => ?_, if_neg hc⟩
          obtain rfl := Option.some.inj (hg.symm.trans h')
          exact Nat.le_of_not_lt fun h => hc ⟨h₁, h⟩

/-- **`onNewQCLocked`, by cases**: nothing, or the raise with the chain rule. -/
theorem onNewQCLocked_cases (n : Replica) (qc : QC) :
    n.onNewQCLocked E qc = n ∨
    (n.qcValid E qc = true ∧ n.qcHigh.height < qc.height ∧
      ((n.blocks.lookup qc.nodeID = none ∧
          n.onNewQCLocked E qc = { n with qcHigh := qc }.persistRecordLocked (.qc qc)) ∨
        ∃ c, n.blocks.lookup qc.nodeID = some c ∧ n.onNewQCLocked E qc =
          ({ n with qcHigh := qc }.persistRecordLocked (.qc qc)).chainRule E c)) := by
  unfold Replica.onNewQCLocked
  split
  · exact Or.inl rfl
  next hval =>
    split
    · exact Or.inl rfl
    next hlt =>
      refine Or.inr ⟨by simpa using hval, by omega, ?_⟩
      obtain ⟨w, o, hm⟩ := persistRecordLocked_eq (.qc qc) { n with qcHigh := qc }
      have hb : ({ n with qcHigh := qc }.persistRecordLocked (.qc qc)).blocks = n.blocks := by
        rw [hm]
      dsimp only
      rw [hb]
      cases hc : n.blocks.lookup qc.nodeID with
      | none => exact Or.inl ⟨rfl, rfl⟩
      | some c => exact Or.inr ⟨c, rfl, rfl⟩

end Folds

/-! ## 4. The worklist -/

section Worklist

variable {E : Env} {m : GoMap BlockID (List Block)} {k : BlockID}

/-- Parked blocks keep a property, which may speak of the parent they are parked under. -/
def Parked (P : BlockID → Block → Prop) (n : Replica) : Prop :=
  ∀ id l, n.pendingBlocks.lookup id = some l → ∀ b ∈ l, P id b

theorem Parked.push {P : BlockID → Block → Prop} {x : Block}
    (h : ∀ id l, m.lookup id = some l → ∀ b ∈ l, P id b) (hx : P k x) :
    ∀ id l, (m.push k x).lookup id = some l → ∀ b ∈ l, P id b := by
  intro id l hl b hb
  rw [GoMap.lookup_push] at hl
  split at hl
  next hk =>
    subst hk
    obtain rfl := Option.some.inj hl
    rcases List.mem_append.mp hb with hb | hb
    · cases hk : m.lookup id with
      | none => simp [hk] at hb
      | some l₀ =>
        rw [hk] at hb
        exact h id l₀ hk b hb
    · exact (List.mem_singleton.mp hb) ▸ hx
  · exact h id l hl b hb

theorem Parked.erase {P : BlockID → Block → Prop}
    (h : ∀ id l, m.lookup id = some l → ∀ b ∈ l, P id b) :
    ∀ id l, (m.erase k).lookup id = some l → ∀ b ∈ l, P id b := by
  intro id l hl
  rw [GoMap.lookup_erase_of] at hl
  split at hl
  · cases hl
  · exact h id l hl

theorem foldl_unpark_spec {Q : BlockID → Block → Prop} : ∀ (l : List Block) (n : Replica)
    (work : List Block), (∀ b ∈ l, Q b.parent b) → Parked Q n →
    (∃ pb, (l.foldl Replica.unpark (n, work)).1 = { n with pendingBlocks := pb }) ∧
      Parked Q (l.foldl Replica.unpark (n, work)).1 ∧
      ∀ b ∈ (l.foldl Replica.unpark (n, work)).2, b ∈ work ∨ (b ∈ l ∧ b.parent ∈ n.blocks)
  | [], n, work, _, hP => ⟨⟨n.pendingBlocks, rfl⟩, hP, fun _ hb => Or.inl hb⟩
  | x :: l, n, work, hl, hP => by
    have hl' : ∀ b ∈ l, Q b.parent b := fun b hb => hl b (List.mem_cons_of_mem _ hb)
    rw [List.foldl_cons]
    by_cases hx : x.parent ∈ n.blocks
    · have hu : Replica.unpark (n, work) x = (n, work ++ [x]) := by simp [Replica.unpark, hx]
      rw [hu]
      obtain ⟨h₁, h₂, h₃⟩ := foldl_unpark_spec l n (work ++ [x]) hl' hP
      refine ⟨h₁, h₂, fun b hb => ?_⟩
      rcases h₃ b hb with h | ⟨h, hp⟩
      · rcases List.mem_append.mp h with h | h
        · exact Or.inl h
        · obtain rfl := List.mem_singleton.mp h
          exact Or.inr ⟨List.mem_cons_self, hx⟩
      · exact Or.inr ⟨List.mem_cons_of_mem _ h, hp⟩
    · have hu : Replica.unpark (n, work) x =
          ({ n with pendingBlocks := n.pendingBlocks.push x.parent x }, work) := by
        simp [Replica.unpark, hx]
      rw [hu]
      obtain ⟨⟨pb, h₁⟩, h₂, h₃⟩ := foldl_unpark_spec l
        { n with pendingBlocks := n.pendingBlocks.push x.parent x } work hl'
        (Parked.push hP (hl x List.mem_cons_self))
      exact ⟨⟨pb, h₁⟩, h₂, fun b hb => (h₃ b hb).imp_right fun h =>
        ⟨List.mem_cons_of_mem _ h.1, h.2⟩⟩

/-- **One turn of the worklist**: nothing happens, or the block is inserted and what waited for it
is released.  `Q` is what is known of the blocks parked under an id. -/
theorem addBlockTurn_cases {Q : BlockID → Block → Prop} (hQ : ∀ id b, Q id b → Q b.parent b)
    (cur : Block) (n : Replica)
    (hP : cur.id ∉ n.blocks → n.epochGate E cur = true → Parked Q (n.insertBlock E cur)) :
    (n.addBlockTurn E cur = (n, [], []) ∧ (cur.id ∈ n.blocks ∨ ¬ n.epochGate E cur = true)) ∨
    cur.id ∉ n.blocks ∧ n.epochGate E cur = true ∧ ∃ pb,
      (n.addBlockTurn E cur).1 = { n.insertBlock E cur with
        pending := (n.insertBlock E cur).pending.erase cur.id, pendingBlocks := pb } ∧
      Parked Q { n.insertBlock E cur with pendingBlocks := pb } ∧
      ∀ b ∈ (n.addBlockTurn E cur).2.2, Q cur.id b ∧ b.parent ∈ (n.insertBlock E cur).blocks := by
  unfold Replica.addBlockTurn
  split
  next hin => exact Or.inl ⟨rfl, Or.inl hin⟩
  next hnot =>
  split
  next hgate => exact Or.inl ⟨rfl, Or.inr hgate⟩
  next hgate =>
  have hgate := not_not.mp hgate
  have hP := hP hnot hgate
  generalize n.insertBlock E cur = m at hP
  have hparked : ∀ b ∈ (m.pendingBlocks.lookup cur.id).getD [], Q cur.id b := by
    intro b hb
    cases hl : m.pendingBlocks.lookup cur.id with
    | none => simp [hl] at hb
    | some l =>
      rw [hl] at hb
      exact hP _ l hl b hb
  obtain ⟨⟨pb, heq⟩, hP', hwork⟩ := foldl_unpark_spec (Q := Q)
    ((m.pendingBlocks.lookup cur.id).getD [])
    { m with pending := m.pending.erase cur.id, pendingBlocks := m.pendingBlocks.erase cur.id } []
    (fun b hb => hQ _ b (hparked b hb)) (Parked.erase hP)
  rw [heq] at hP'
  refine Or.inr ⟨hnot, hgate, pb, heq, hP', fun b hb => ?_⟩
  obtain ⟨hb, hin⟩ := (hwork b hb).resolve_left List.not_mem_nil
  exact ⟨hparked b hb, hin⟩

/-- **The worklist loop**: what every turn keeps, given what is known of the blocks that are
listed. -/
theorem addBlockLoop_run {I : Replica → Prop} {L : Replica → Block → Prop}
    (hturn : ∀ n cur, I n → L n cur → I (n.addBlockTurn E cur).1 ∧
      (∀ b ∈ (n.addBlockTurn E cur).2.2, L (n.addBlockTurn E cur).1 b) ∧
      ∀ b, L n b → L (n.addBlockTurn E cur).1 b) :
    ∀ (fuel : ℕ) (work : List Block) (n : Replica) (kids : List Proposal), I n →
      (∀ b ∈ work, L n b) → I (Replica.addBlockLoop E fuel work n kids).1
  | 0, _, _, _, h, _ => h
  | _ + 1, [], _, _, h, _ => h
  | fuel + 1, cur :: work, n, kids, h, hw => by
    obtain ⟨h₁, hnext, hkeep⟩ := hturn n cur h (hw cur List.mem_cons_self)
    refine addBlockLoop_run hturn fuel _ _ _ h₁ fun b hb => ?_
    rcases List.mem_append.mp hb with hb | hb
    · exact hnext b (List.mem_reverse.mp hb)
    · exact hkeep b (hw b (List.mem_cons_of_mem _ hb))

theorem addBlockLocked_run {I : Replica → Prop} {L : Replica → Block → Prop}
    (hturn : ∀ n cur, I n → L n cur → I (n.addBlockTurn E cur).1 ∧
      (∀ b ∈ (n.addBlockTurn E cur).2.2, L (n.addBlockTurn E cur).1 b) ∧
      ∀ b, L n b → L (n.addBlockTurn E cur).1 b)
    {n : Replica} {b : Block} (h : I (n.addBlockTurn E b).1)
    (hnext : ∀ x ∈ (n.addBlockTurn E b).2.2, L (n.addBlockTurn E b).1 x) :
    I (n.addBlockLocked E b).1 := by
  unfold Replica.addBlockLocked
  simp only [Replica.addBlockLoop]
  refine addBlockLoop_run hturn _ _ _ _ h fun x hx => hnext x ?_
  rwa [List.append_nil, List.mem_reverse] at hx

end Worklist

/-! ## 5. Bookkeeping -/

/-- A property that reads no buffer, no flag and no request, or allows for what is written there. -/
structure Clerical (ids : List BlockID) (P : Replica → Prop) : Prop where
  note : ∀ {n m : Replica}, P n → m = { n with
    pending := m.pending, vcSent := m.vcSent, panicked := m.panicked } →
    (n.panicked = true → m.panicked = true) → P m
  fetch : ∀ {n : Replica} (now : ℕ) {id : BlockID}, id ∈ ids → P n → P (n.markFetchLocked now id)
  sync : ∀ {n : Replica} (now : ℕ) (anchor : BlockID) {target : BlockID} (peer : String),
    target ∈ ids → P n → P (n.markSyncLocked now anchor target peer).1
  answered : ∀ {n : Replica} (k : ℕ), P n → P { n with syncReqs := n.syncReqs.erase k }
  activate : ∀ {n : Replica} (base : QC), P n → P (n.activateWithBaseLocked base)

/-- One that also allows for messages, and for signatures other than a vote's. -/
structure Tolerates (ids : List BlockID) (P : Replica → Prop) : Prop extends Clerical ids P where
  send : ∀ {n : Replica} (peer : String) (m : Message), P n → P (n.emit (.send peer m))
  signed : ∀ {n : Replica} {m : Signable}, (∀ h id v, m ≠ .vote h id v) → P n →
    P (n.emit (.signed m))

/-! ## 6. Rules -/

section Rules

variable {E : Env} {C : Ctx} {ids : List BlockID} {P : Replica → Prop} {n : Replica}

theorem Clerical.crash (h : Clerical ids P) (hn : P n) : P n.crash := h.note hn rfl fun _ => rfl

/-- A base is awaited, adopted, or the view goes on from the replica's own. -/
theorem Clerical.adoptBaseLocked (h : Clerical ids P) {high : QC} (hn : P n)
    (hids : n.qcHigh.height < high.height → high.nodeID ∈ ids)
    (hwant : P { n with wantBase := some high })
    (hadopt : n.id = n.leader → n.qcHigh.height < high.height → high.nodeID ∈ n.blocks →
      P { n with qcHigh := high }) : P (n.adoptBaseLocked E C high).1 := by
  unfold Replica.adoptBaseLocked
  split
  · exact hn
  next hid =>
  split
  next hgt =>
    split
    · dsimp only
      split
      · exact h.activate _ hn
      split
      · exact hwant
      · exact h.fetch _ (hids hgt) hwant
    next hin =>
      rw [adoptQC_eq]
      exact h.activate _ (hadopt (not_not.mp hid) hgt (not_not.mp hin))
  · exact h.activate _ hn

/-- With a quorum of view changes the view is joined, and the highest reported certificate is its
base. -/
theorem Clerical.maybeActivateLocked (h : Clerical ids P) {view : ℕ} (hn : P n)
    (henter : ∀ set, n.view < view → n.sets.lookup n.epoch = some set →
      set.quorum ≤ (n.vcsOf view).len → P (n.enterViewLocked view))
    (hids : ∀ id ∈ n.basing E C view, id ∈ ids)
    (hwant : ∀ m, P m →
      P { m with wantBase := some (n.highestReported E (C.scan.order (n.vcsOf view).values)) })
    (hadopt : ∀ m, P m → ∀ qc ∈ n.adopting E C view, qc.nodeID ∈ m.blocks →
      m.qcHigh.height < qc.height → P { m with qcHigh := qc }) :
    P (n.maybeActivateLocked E C view).1 := by
  unfold Replica.maybeActivateLocked
  split
  · exact hn
  next set hset =>
  split
  · exact h.crash hn
  next l hl =>
  split
  · exact hn
  next hid =>
  have hid : n.id = l := not_not.mp hid
  dsimp only
  split
  · exact hn
  next hlen =>
  -- the view is entered, or was before
  have hview : P (if view > n.view then n.enterViewLocked view else n) := by
    split
    next hgt => exact henter set hgt hset (by omega)
    · exact hn
  obtain ⟨v, l', a, k, hm, hjoin⟩ : ∃ v l' a k,
      (if view > n.view then n.enterViewLocked view else n) =
        { n with view := v, leader := l', active := a, panicked := k } ∧
      (v = view → l' = n.id → n.view < view ∨ (n.view = view ∧ n.leader = n.id)) := by
    split
    next hgt =>
      obtain ⟨v, l', a, k, heq⟩ := enterViewLockedEpoch_eq view n.epoch n
      exact ⟨v, l', a, k, heq, fun _ _ => Or.inl hgt⟩
    · exact ⟨n.view, n.leader, n.active, n.panicked, rfl, fun h₁ h₂ => Or.inr ⟨h₁, h₂⟩⟩
  rw [hm] at hview ⊢
  split
  · exact hview
  next hv =>
  have hv : view = v := not_not.mp hv
  refine h.adoptBaseLocked hview (fun hlt => hids _ ?_) (hwant _ hview) fun hlead hlt hin =>
    hadopt _ hview _ ?_ hin hlt
  · have hlt : n.qcHigh.height <
        (n.highestReported E (C.scan.order (n.vcsOf view).values)).height := hlt
    change (n.highestReported E (C.scan.order (n.vcsOf view).values)).nodeID ∈ _
    simp [Replica.basing, hlt]
  · have hj : n.joins view = true := by
      have hj := hjoin hv.symm (Eq.symm hlead)
      unfold Replica.joins
      simp only [hset, hl, hid, Bool.and_eq_true, Bool.or_eq_true, decide_eq_true_eq,
        true_and] at hj ⊢
      exact ⟨by omega, hj⟩
    have hcond : n.joins view = true ∧
        n.qcHigh.height < (n.highestReported E (C.scan.order (n.vcsOf view).values)).height ∧
        (n.highestReported E (C.scan.order (n.vcsOf view).values)).nodeID ∈ n.blocks :=
      ⟨hj, hlt, hin⟩
    change n.highestReported E (C.scan.order (n.vcsOf view).values) ∈ _
    unfold Replica.adopting
    simp only [hcond, and_self, if_true, List.mem_singleton]

namespace Tolerates

variable (h : Tolerates ids P)

include h

theorem sendAll : ∀ (msgs : List (String × Message)) {n : Replica}, P n → P (n.sendAll msgs)
  | [], _, hn => hn
  | m :: msgs, _, hn => sendAll msgs (h.send m.1 m.2 hn)

theorem sendFetch (f : Option Fetch) (hn : P n) : P (n.sendFetch f) := by
  unfold Replica.sendFetch
  split
  · exact hn
  split
  · exact hn
  · exact h.send _ _ hn

theorem handleFetch (f : Fetch) (hn : P n) : P (n.handleFetch E f) := by
  unfold Replica.handleFetch
  split
  · exact hn
  split
  · exact hn
  · exact h.send _ _ (h.signed (fun _ _ _ => Signable.noConfusion) hn)

theorem handleGetBlocks (g : GetBlocks) (hn : P n) : P (n.handleGetBlocks E g) := by
  unfold Replica.handleGetBlocks
  dsimp only
  generalize (if n.knownMemberLocked g.sender then n.collectRangeLocked g.anchor g.target else [])
    = blocks
  split
  · exact hn
  · exact h.send _ _ (h.signed (fun _ _ _ => Signable.noConfusion) hn)

theorem requestBlock (peer : String) {id : BlockID} (hid : id ∈ ids) (hn : P n) :
    P (n.requestBlock C peer id) := by
  unfold Replica.requestBlock
  split
  · exact hn
  · exact h.sendFetch _ (h.fetch _ hid hn)

theorem bufferProposal {p : Proposal} (hn : P n)
    (hask : (if p.block.height > u64 (n.heightOf n.head + 3) then
      ! n.syncInFlightLocked C.now p.block.parent
      else ! n.fetchInFlightLocked C.now p.block.parent) = true → p.block.parent ∈ ids) :
    P (n.bufferProposal C p).1 := by
  have hbuf : P { n with pending := n.pending.push p.block.parent p } :=
    h.note hn rfl fun hp => hp
  unfold Replica.bufferProposal
  dsimp only
  split
  next hgap =>
    split
    · exact hbuf
    next hfly => exact h.sync _ _ _ (hask ((if_pos hgap).trans (Bool.not_eq_true' _ ▸
        Bool.eq_false_iff.mpr hfly))) hbuf
  next hgap =>
    split
    · exact hbuf
    next hfly => exact h.fetch _ (hask ((if_neg hgap).trans (Bool.not_eq_true' _ ▸
        Bool.eq_false_iff.mpr hfly))) hbuf

theorem handleProposal {p : Proposal} (hn : P n) (hask : n.asks C p = true → p.block.parent ∈ ids)
    (haccept : n.considers E p = true →
      P ((n.enterViewLockedEpoch p.block.view p.block.epoch).acceptProposal E p.block).1) :
    P (n.handleProposal E C p).1 := by
  suffices P (n.handleProposalLocked E C p).1 from h.sendAll _ this
  cases hc : n.considers E p with
  | true =>
    rw [handleProposalLocked_considers hc]
    exact haccept hc
  | false =>
    rcases handleProposalLocked_ignored (C := C) hc with heq | heq | ⟨heq, hid, hnew, hexec, hpar⟩
    · rw [heq]
      exact hn
    · rw [heq]
      exact h.crash hn
    · rw [heq]
      refine h.bufferProposal hn fun hfree => hask ?_
      simp only [Replica.asks, hid.symm, hnew, hexec, hpar, hfree, not_false_eq_true, decide_true,
        Bool.and_self]

theorem countVC (vc : ViewChange) (hn : P n)
    (hcollect : P { n with vcs := n.vcs.insert vc.view ((n.vcsOf vc.view).insert vc.sender vc) })
    (hactivate : P (n.addVC vc) → P ((n.addVC vc).maybeActivateLocked E C vc.view).1) :
    P (((n.addVC vc).maybeActivateLocked E C vc.view).1.sendFetch
      ((n.addVC vc).maybeActivateLocked E C vc.view).2) := by
  refine h.sendFetch _ (hactivate ?_)
  rcases addVC_eq vc n with heq | heq | heq
  · rwa [heq]
  · rw [heq]
    exact h.crash hn
  · rwa [heq]

theorem handleViewChange {vc : ViewChange} (hn : P n)
    (hcount : n.counts E vc = true →
      P (((n.addVC vc).maybeActivateLocked E C vc.view).1.sendFetch
        ((n.addVC vc).maybeActivateLocked E C vc.view).2)) :
    P (n.handleViewChange E C vc) := by
  cases hc : n.counts E vc with
  | true =>
    rw [handleViewChange_eq hc]
    exact hcount hc
  | false =>
    rcases handleViewChange_ignored (C := C) hc with heq | ⟨heq, -⟩
    · rwa [heq]
    · rw [heq]
      exact h.crash hn

/-- The view is suspected and the next one entered, or kept; the view change that is announced is
the replica's own, for a view it has reached. -/
theorem startViewChange (hn : P n)
    (henter : n.view = 0 ∨ n.view ∈ n.vcSent → P (n.enterViewLocked (u64 (n.view + 1))))
    (hcount : ∀ m vc, n.announce E = some (m, vc) → m.id = m.leader → vc.view ≤ m.view →
      vc.highQC = some m.qcHigh → P m →
      P (((m.addVC vc).maybeActivateLocked E C vc.view).1.sendFetch
        ((m.addVC vc).maybeActivateLocked E C vc.view).2)) :
    P (n.startViewChange E C) := by
  have hview : ∀ (q : Prop) [Decidable q], (q → P (n.enterViewLocked (u64 (n.view + 1)))) →
      P (if q then n.enterViewLocked (if q then u64 (n.view + 1) else n.view) else n) ∧
      (if q then u64 (n.view + 1) else n.view) ≤
        (if q then n.enterViewLocked (if q then u64 (n.view + 1) else n.view) else n).view := by
    intro q _ hq
    split
    next hq' =>
      refine ⟨hq hq', ?_⟩
      unfold Replica.enterViewLocked Replica.enterViewLockedEpoch
      split
      · assumption
      · split <;> exact le_refl _
    · exact ⟨hn, le_refl _⟩
  obtain ⟨hm, hle⟩ := hview _ henter
  unfold Replica.announce at hcount
  unfold Replica.startViewChange
  dsimp only at hcount ⊢
  generalize (if n.view = 0 ∨ n.view ∈ n.vcSent then n.enterViewLocked
    (if n.view = 0 ∨ n.view ∈ n.vcSent then u64 (n.view + 1) else n.view) else n) = m
    at hm hle hcount
  generalize (if n.view = 0 ∨ n.view ∈ n.vcSent then u64 (n.view + 1) else n.view) = t
    at hle hcount
  split
  · exact hm
  next hp =>
  split
  · exact hm
  next ht =>
  rw [if_neg hp, if_neg ht] at hcount
  have hsign : P (({ m with vcSent := t :: m.vcSent } : Replica).sign E
      (.viewChange t m.epoch (some m.qcHigh) m.id)).1 :=
    h.signed (fun _ _ _ => Signable.noConfusion) (h.note hm rfl fun hp => hp)
  split
  next hl => exact hcount _ _ rfl hl hle rfl hsign
  · exact h.send _ _ hsign

end Tolerates

section Inserting

variable (hturn : ∀ (m : Replica) (b : Block), P m → P (m.addBlockTurn E b).1)
include hturn

theorem addBlockLoop_keeps (fuel : ℕ) (work : List Block) (n : Replica) (kids : List Proposal)
    (hn : P n) : P (Replica.addBlockLoop E fuel work n kids).1 :=
  addBlockLoop_run (L := fun _ _ => True)
    (fun m b hm _ => ⟨hturn m b hm, fun _ _ => trivial, fun _ _ => trivial⟩) fuel work n kids hn
    fun _ _ => trivial

theorem addBlockLocked_keeps (b : Block) (hn : P n) : P (n.addBlockLocked E b).1 :=
  addBlockLoop_keeps hturn _ _ n [] hn

theorem foldl_insertBatchBlock_keeps : ∀ (bs : List Block) (acc : Replica × List Proposal),
    P acc.1 → P (bs.foldl (Replica.insertBatchBlock E) acc).1
  | [], _, hn => hn
  | b :: bs, acc, hn => by
    refine foldl_insertBatchBlock_keeps bs _ ?_
    unfold Replica.insertBatchBlock
    split
    · exact hn
    · exact addBlockLocked_keeps hturn b hn

theorem acceptProposal_keeps (b : Block) (hvote : ∀ m, P m → P (m.castVote E b).1) (hn : P n) :
    P (n.acceptProposal E b).1 := by
  unfold Replica.acceptProposal
  split
  · exact hn
  split
  · exact hn
  · exact hvote _ (addBlockLocked_keeps hturn b hn)

end Inserting

theorem completeBaseLocked_keeps {id : BlockID} (hn : P n)
    (hstay : P (n.activateWithBaseLocked n.qcHigh))
    (hadopt : ∀ high, n.wantBase = some high → id = high.nodeID → n.qcHigh.height < high.height →
      P ({ n with qcHigh := high }.activateWithBaseLocked high)) : P (n.completeBaseLocked E id) := by
  unfold Replica.completeBaseLocked
  split
  · exact hn
  next high hw =>
  split
  · exact hn
  next hne =>
  split
  next hgt =>
    rw [adoptQC_eq]
    exact hadopt high hw (not_not.mp hne) hgt
  · exact hstay

theorem handleBlock_keeps {bm : BlockMsg} (hn : P n)
    (hpark : n.blockAdmitted E C.now bm.block = true →
      P { n with pendingBlocks := n.pendingBlocks.push bm.block.parent bm.block })
    (hadd : n.takesBlock E C.now bm = true → P (n.addBlockLocked E bm.block).1) :
    P (n.handleBlock E C bm).1 := by
  unfold Replica.handleBlock
  split
  · exact hn
  next hauth =>
  dsimp only
  split
  · exact hn
  next hadm =>
  have hadm : n.blockAdmitted E C.now bm.block = true := by simpa using hadm
  split
  · exact hpark hadm
  next hpar =>
    have hauth : n.knownMemberLocked bm.sender = true ∧
        n.verify E bm.sender bm.sig bm.signable = true := by
      simpa [not_or] using hauth
    refine hadd ?_
    simp only [Replica.takesBlock, hauth, hadm, Bool.and_eq_true, Bool.or_eq_true,
      decide_eq_true_eq, true_and]
    exact or_iff_not_imp_left.mpr fun hno => by_contra fun hnot => hpar ⟨hno, hnot⟩

/-- A batch that answers a request is inserted if it is sound; a partial one asks for the rest. -/
theorem Tolerates.handleBlockBatch (h : Tolerates ids P) {bb : BlockBatch} (hn : P n)
    (hask : (n.answers E C.now bb).isSome = true → bb.target ∈ ids)
    (hinsert : n.takesBatch E C.now bb = true →
      P (bb.blocks.foldl (Replica.insertBatchBlock E) (n, [])).1) :
    P (n.handleBlockBatch E C bb).1 := by
  unfold Replica.handleBlockBatch
  split
  · exact hn
  next req hreq =>
  split
  · exact hn
  next hpeer =>
  split
  · exact hn
  next hver =>
  have hpeer := not_or.mp hpeer
  have hpeer : req.peer = bb.sender ∧ C.now ≤ req.deadline := ⟨not_not.mp hpeer.1, by omega⟩
  have hver : n.verify E bb.sender bb.sig bb.signable = true := by simpa using hver
  have hins : P (n.insertBatchLocked E bb).1 := by
    unfold Replica.insertBatchLocked
    split
    · exact hn
    next lowest tail hbb =>
    split
    · exact hn
    next anchor hanchor =>
    split
    · exact hn
    next hsound =>
      have hsound : Replica.batchSound E n none anchor.height anchor.epoch bb.blocks = true := by
        simpa using hsound
      refine hinsert ?_
      unfold Replica.takesBatch
      simp only [hreq, hpeer, hver, decide_true, Bool.and_self, Bool.true_and]
      simpa only [hbb, hanchor] using hsound
  dsimp only
  split
  · exact h.answered _ hins
  split
  · refine h.send _ _ (h.sync _ _ _ (hask ?_) (h.answered _ hins))
    simp [Replica.answers, hreq, hpeer, hver]
  · exact h.answered _ hins

end Rules

end Cachey.HotStuff
