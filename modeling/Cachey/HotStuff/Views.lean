/-
# How a replica comes into a view

The view, and the leader a replica has for it, are written in one place, `enterViewLockedEpoch`,
and the leader's activity in one more, `activateWithBaseLocked`.  Everything else an entry point
does -- folding certificates, executing blocks, inserting, voting, answering -- is INERT: it keeps
whatever reads these fields only (§1, §2).  What does not count votes is PASSIVE too: it keeps what
reads the vote sets as well; what folds certificates or inserts sends nothing, and is INWARD.  So a
call either keeps the replica in its SEAT or puts it into a later view (§4), on one of three
grounds:

* it suspects its own view (`StartViewChange`), and moves up by one;
* it leads the later view and has counted a quorum of view changes for it;
* a proposal of the later view passed every test up to safeNode, its view certificate included.
-/
import Cachey.HotStuff.Calls
import Cachey.HotStuff.Recovery

namespace Cachey.HotStuff

section Entering

variable {n : Replica} {view epoch : ℕ}

theorem enterViewLockedEpoch_of_le (h : view ≤ n.view) :
    n.enterViewLockedEpoch view epoch = n := by
  unfold Replica.enterViewLockedEpoch
  rw [if_pos h]

/-- Entering a later one: the leader is that of the epoch given, or computing it panics. -/
theorem enterViewLockedEpoch_of_lt (h : n.view < view) :
    n.enterViewLockedEpoch view epoch = { n with
      view := view
      leader := (n.leaderOfEpoch epoch view).getD n.leader
      active := (n.leaderOfEpoch epoch view).isNone && n.active
      panicked := (n.leaderOfEpoch epoch view).isNone || n.panicked } := by
  unfold Replica.enterViewLockedEpoch
  rw [if_neg (by omega)]
  cases n.leaderOfEpoch epoch view <;> rfl

end Entering

/-- A property that folding certificates and inserting blocks keep: it reads the view, its leader,
the leader's activity, the vote sets and what was sent, and an activation keeps it. -/
structure Inward (P : Replica → Prop) : Prop where
  write : ∀ {n m : Replica}, P n → m = { n with
    epoch := m.epoch, sets := m.sets, blocks := m.blocks, qcHigh := m.qcHigh, head := m.head
    bLock := m.bLock, bExec := m.bExec, vHeight := m.vHeight, pending := m.pending
    pendingBlocks := m.pendingBlocks, notify := m.notify, applied := m.applied, vcs := m.vcs
    vcSent := m.vcSent, wantBase := m.wantBase, fetches := m.fetches, syncSeq := m.syncSeq
    syncReqs := m.syncReqs, gcBase := m.gcBase, writes := m.writes, panicked := m.panicked } → P m
  emit : ∀ {n : Replica} {e : Effect}, (∀ peer msg, e ≠ .send peer msg) → P n → P (n.emit e)
  activate : ∀ {n : Replica} (base : QC), P n → P (n.activateWithBaseLocked base)

/-- A property that reads the view, its leader, the leader's activity and the vote sets only, and
that an activation keeps. -/
structure Passive (P : Replica → Prop) : Prop where
  write : ∀ {n m : Replica}, P n → m = { n with
    epoch := m.epoch, sets := m.sets, blocks := m.blocks, qcHigh := m.qcHigh, head := m.head
    bLock := m.bLock, bExec := m.bExec, vHeight := m.vHeight, pending := m.pending
    pendingBlocks := m.pendingBlocks, notify := m.notify, applied := m.applied, vcs := m.vcs
    vcSent := m.vcSent, wantBase := m.wantBase, fetches := m.fetches, syncSeq := m.syncSeq
    syncReqs := m.syncReqs, gcBase := m.gcBase, writes := m.writes, out := m.out
    panicked := m.panicked } → P m
  activate : ∀ {n : Replica} (base : QC), P n → P (n.activateWithBaseLocked base)

/-- A property that reads the view, its leader and the leader's activity only, and that an
activation keeps. -/
structure Inert (P : Replica → Prop) : Prop where
  write : ∀ {n m : Replica}, P n → m = { n with
    epoch := m.epoch, sets := m.sets, blocks := m.blocks, qcHigh := m.qcHigh, head := m.head
    bLock := m.bLock, bExec := m.bExec, vHeight := m.vHeight, pending := m.pending
    pendingBlocks := m.pendingBlocks, votes := m.votes, qcFormed := m.qcFormed
    notify := m.notify, applied := m.applied, vcs := m.vcs, vcSent := m.vcSent
    wantBase := m.wantBase, fetches := m.fetches, syncSeq := m.syncSeq, syncReqs := m.syncReqs
    gcBase := m.gcBase, writes := m.writes, out := m.out, panicked := m.panicked } → P m
  activate : ∀ {n : Replica} (base : QC), P n → P (n.activateWithBaseLocked base)

theorem Inert.passive {P : Replica → Prop} (h : Inert P) : Passive P where
  write := by
    intro n m hn hm
    refine h.write hn ?_
    rw [hm]
  activate := h.activate

theorem Passive.inward {P : Replica → Prop} (h : Passive P) : Inward P where
  write := by
    intro n m hn hm
    refine h.write hn ?_
    rw [hm]
  emit := fun _ hn => h.write hn rfl
  activate := h.activate

namespace Inward

variable {E : Env} {P : Replica → Prop} {n : Replica}

/-! ## 1. Certificates and blocks -/

variable (h : Inward P)

include h

theorem persistRecordLocked (pe : PersistEntry) (hn : P n) : P (n.persistRecordLocked pe) := by
  unfold Replica.persistRecordLocked Replica.persistLocked
  split
  · exact hn
  · exact h.emit (by simp) (h.write hn rfl)

theorem execBlock (b : Block) (hn : P n) : P (n.execBlock E b) := by
  have hmark : ∀ m : Replica, P m → P (m.markAppliedLocked b.id) := by
    intro m hm
    unfold Replica.markAppliedLocked
    split
    · exact hm
    · dsimp only
      split
      · exact h.emit (by simp) (h.write hm rfl)
      · exact h.write hm rfl
  unfold Replica.execBlock
  dsimp only
  rw [activateTransitionLocked_eq]
  refine hmark _ (h.emit (by simp) ?_)
  split
  · exact h.write (h.emit (e := .apply b) (by simp) hn) rfl
  · exact h.write hn rfl

theorem foldl_execBlock : ∀ (l : List Block) (n : Replica), P n →
    P (l.foldl (Replica.execBlock E) n)
  | [], _, hn => hn
  | b :: l, n, hn => foldl_execBlock l (n.execBlock E b) (h.execBlock b hn)

theorem chainRule (c : Block) (hn : P n) : P (n.chainRule E c) := by
  have hraise : ∀ p : Block, P (n.raiseLock p) := by
    intro p
    unfold Replica.raiseLock
    split
    · exact h.write hn rfl
    · exact hn
  rcases chainRule_cases (E := E) n c with ⟨_, _, heq⟩ | ⟨_, _, heq⟩ | ⟨p, _, _, heq⟩ |
    ⟨p, _, _, _, heq⟩ | ⟨p, gp, _, _, _, _, _, heq⟩
  · rw [heq]
    exact hn
  · rw [heq]
    exact h.write hn rfl
  · rw [heq]
    exact hn
  · rw [heq]
    exact hraise p
  · rw [heq]
    exact h.persistRecordLocked _ (h.foldl_execBlock _ _ (hraise p))

theorem onNewQCLocked (qc : QC) (hn : P n) : P (n.onNewQCLocked E qc) := by
  have hrec : P ({ n with qcHigh := qc }.persistRecordLocked (.qc qc)) :=
    h.persistRecordLocked _ (h.write hn rfl)
  rcases onNewQCLocked_cases (E := E) n qc with heq | ⟨_, _, ⟨_, heq⟩ | ⟨c, _, heq⟩⟩
  · rw [heq]
    exact hn
  · rw [heq]
    exact hrec
  · rw [heq]
    exact h.chainRule c hrec

theorem completeBaseLocked (id : BlockID) (hn : P n) : P (n.completeBaseLocked E id) :=
  completeBaseLocked_keeps hn (h.activate _ hn) fun _ _ _ _ => h.activate _ (h.write hn rfl)

theorem insertBlock (cur : Block) (hn : P n) : P (n.insertBlock E cur) := by
  have hrec : P ({ n with blocks := n.blocks.insert cur.id cur, fetches := n.fetches.erase cur.id
      }.persistRecordLocked (.block cur)) := h.persistRecordLocked _ (h.write hn rfl)
  have hhead : ∀ m : Replica, P m →
      P (if cur.height > m.heightOf m.head then { m with head := cur.id } else m) := by
    intro m hm
    split
    · exact h.write hm rfl
    · exact hm
  refine h.completeBaseLocked _ ?_
  cases cur.justify with
  | none => exact hhead _ hrec
  | some qc => exact h.onNewQCLocked qc (hhead _ hrec)

theorem addBlockTurn (cur : Block) (hn : P n) : P (n.addBlockTurn E cur).1 := by
  rcases addBlockTurn_cases (E := E) (Q := fun _ _ => True) (fun _ _ h => h) cur n
    (fun _ _ _ _ _ _ _ => trivial) with ⟨heq, _⟩ | ⟨_, _, pb, heq, _⟩
  · rw [heq]
    exact hn
  · rw [heq]
    exact h.write (h.insertBlock cur hn) rfl

end Inward

namespace Passive

variable {E : Env} {C : Ctx} {P : Replica → Prop} {n : Replica}

theorem addBlockLocked (h : Passive P) (b : Block) (hn : P n) : P (n.addBlockLocked E b).1 :=
  addBlockLocked_keeps (fun _ cur hm => h.inward.addBlockTurn cur hm) b hn

/-! ## 2. Votes, proposals, answers -/

theorem tolerates (h : Passive P) (ids : List BlockID) : Tolerates ids P where
  note := by
    intro n m hn hm _
    refine h.write hn ?_
    rw [hm]
  fetch := fun _ _ _ hn => h.write hn rfl
  sync := fun _ _ _ _ _ hn => h.write hn rfl
  answered := fun _ hn => h.write hn rfl
  activate := h.activate
  send := fun _ _ hn => h.write hn rfl
  signed := fun _ hn => h.write hn rfl

theorem castVote (h : Passive P) (b : Block) (hn : P n) : P (n.castVote E b).1 := by
  rcases castVote_eq (E := E) b n with heq | ⟨_, w, o, heq⟩
  · rw [heq]
    exact hn
  · rw [heq]
    exact h.write hn rfl

theorem acceptProposal (h : Passive P) (b : Block) (hn : P n) : P (n.acceptProposal E b).1 :=
  acceptProposal_keeps (fun _ cur hm => h.inward.addBlockTurn cur hm) b (fun _ hm => h.castVote b hm) hn

/-! ## 3. View changes -/

theorem enterViewLocked_addVC (vc : ViewChange) {view : ℕ} (hlt : n.view < view) : ∃ vcs k,
    (n.addVC vc).enterViewLocked view =
      { n.enterViewLocked view with vcs := vcs, panicked := k } := by
  unfold Replica.enterViewLocked
  rw [enterViewLockedEpoch_of_lt hlt]
  rcases addVC_eq vc n with heq | heq | heq <;> rw [heq] <;>
    exact ⟨_, _, enterViewLockedEpoch_of_lt hlt⟩

theorem countVC (h : Passive P) (vc : ViewChange) (hn : P n)
    (henter : ∀ set, n.view < vc.view → n.sets.lookup n.epoch = some set →
      set.quorum ≤ ((n.addVC vc).vcsOf vc.view).len → P (n.enterViewLocked vc.view)) :
    P (((n.addVC vc).maybeActivateLocked E C vc.view).1.sendFetch
      ((n.addVC vc).maybeActivateLocked E C vc.view).2) := by
  have hsame : (n.addVC vc).view = n.view ∧ (n.addVC vc).sets = n.sets ∧
      (n.addVC vc).epoch = n.epoch := by
    rcases addVC_eq vc n with heq | heq | heq <;> rw [heq] <;> exact ⟨rfl, rfl, rfl⟩
  have htol := h.tolerates ((n.addVC vc).basing E C vc.view)
  refine htol.countVC vc hn (h.write hn rfl) fun hadd =>
    htol.maybeActivateLocked hadd (fun set hlt hset hq => ?_) (fun _ hid => hid)
      (fun _ hm => h.write hm rfl) fun _ hm _ _ _ _ => h.write hm rfl
  rw [hsame.1] at hlt
  obtain ⟨vcs, k, heq⟩ := enterViewLocked_addVC vc hlt
  rw [hsame.2.1, hsame.2.2] at hset
  rw [heq]
  exact h.write (henter set hlt hset hq) rfl

theorem startViewChange (h : Passive P) (hn : P n)
    (henter : n.view = 0 ∨ n.view ∈ n.vcSent → P (n.enterViewLocked (u64 (n.view + 1)))) :
    P (n.startViewChange E C) :=
  (h.tolerates []).startViewChange hn henter fun _ vc _ _ hle _ hm =>
    h.countVC vc hm fun _ hlt => absurd hlt (by omega)

end Passive

namespace Inert

variable {E : Env} {C : Ctx} {P : Replica → Prop} {n : Replica}

theorem voteForBlockLocked (h : Inert P) (v : Vote) (hn : P n) : P (n.voteForBlockLocked E v) :=
  voteForBlockLocked_keeps hn (fun _ _ _ _ _ => h.write hn rfl) fun _ _ _ _ _ _ =>
    h.passive.inward.onNewQCLocked _ (h.write hn rfl)

theorem propose (h : Inert P) (cmd : Bytes) (hn : P n)
    (hspent : ∀ b ∈ n.building (.propose cmd), P { n with freshBase := false }) :
    P (n.propose E C cmd).1 := by
  unfold Replica.propose
  split
  · exact hn
  next hlead =>
  split
  · exact hn
  next hbusy =>
    have hlead : n.id = n.leader ∧ n.active = true := by simpa [not_or] using hlead
    have hbusy : n.qcHigh.nodeID = n.head := by simpa using hbusy
    have hspent := hspent (n.nextBlock cmd)
      (by simp [Replica.building, hlead.1.symm, hlead.2, hbusy])
    obtain ⟨e, p, _, _, heq, _⟩ := proposeLocked_eq (E := E) (C := C) cmd n
    obtain ⟨w, o, hprop⟩ := proposed_eq (E := E) cmd n
    refine (h.passive.tolerates []).sendAll _ ?_
    rw [heq, hprop]
    exact h.write (h.voteForBlockLocked _ (h.write hspent rfl)) rfl

theorem handleVote (h : Inert P) (v : Vote) (hn : P n) : P (n.handleVote E v) := by
  unfold Replica.handleVote
  split
  · exact h.voteForBlockLocked v hn
  · exact hn

theorem gcLocked (h : Inert P) (hn : P n) : P n.gcLocked.1 := by
  have hdrop : ∀ (ids : List BlockID) (n : Replica), P n → P (ids.foldl Replica.dropBlock n) := by
    intro ids
    induction ids with
    | nil => exact fun _ hn => hn
    | cons id ids ih =>
      intro n hn
      refine ih _ ?_
      unfold Replica.dropBlock
      dsimp only
      split
      · exact h.write hn rfl
      · exact h.write hn rfl
  unfold Replica.gcLocked
  split
  · exact hn
  split
  · exact hn
  split
  · exact hn
  · exact h.write (hdrop _ n hn) rfl

end Inert

/-! ## 4. A call -/

/-- The grounds on which a call puts the replica into `view`, with the leader of `epoch`. -/
inductive Entry (E : Env) (n : Replica) : Input → (view epoch : ℕ) → Prop
  | suspected (h : n.view = 0 ∨ n.view ∈ n.vcSent) :
      Entry E n .startViewChange (u64 (n.view + 1)) n.epoch
  | counted (vc : ViewChange) (set : ValidatorSet) (h : n.counts E vc = true)
      (hset : n.sets.lookup n.epoch = some set)
      (hquorum : set.quorum ≤ ((n.addVC vc).vcsOf vc.view).len) :
      Entry E n (.deliver (.viewChange vc)) vc.view n.epoch
  | proposed (p : Proposal) (h : n.considers E p = true) :
      Entry E n (.deliver (.proposal p)) p.block.view p.block.epoch

section Calls

variable {E : Env} {C : Ctx} {P : Replica → Prop} {n : Replica}

theorem handleProposal_considers {p : Proposal} (hc : n.considers E p = true) :
    n.handle E C (.deliver (.proposal p)) =
      (fun r : Replica × Replica.ProposalResult => r.1.sendAll (r.2.messages r.1.id p.sender))
        ((n.enterViewLockedEpoch p.block.view p.block.epoch).acceptProposal E p.block) := by
  rw [← handleProposalLocked_considers (C := C) hc]
  rfl

/-- **A call keeps what is passive**, if the views it may enter do, and the votes it may count. -/
theorem Passive.handle (h : Passive P) (inp : Input) (hn : P n)
    (hvote : ∀ v, inp = .deliver (.vote v) → P (n.handleVote E v))
    (hbuild : ∀ cmd, inp = .propose cmd → P (n.propose E C cmd).1)
    (henter : ∀ view epoch, Entry E n inp view epoch → n.view < view →
      P (n.enterViewLockedEpoch view epoch)) : P (n.handle E C inp) := by
  have hview : ∀ view epoch, Entry E n inp view epoch → P (n.enterViewLockedEpoch view epoch) := by
    intro view epoch he
    rcases Nat.lt_or_ge n.view view with hlt | hle
    · exact henter view epoch he hlt
    · rw [enterViewLockedEpoch_of_le hle]
      exact hn
  cases inp with
  | propose cmd => exact hbuild cmd rfl
  | startViewChange => exact h.startViewChange hn fun hagain => hview _ _ (.suspected hagain)
  | requestBlock peer id => exact (h.tolerates [id]).requestBlock peer (List.mem_singleton.mpr rfl) hn
  | deliver m =>
    cases m with
    | proposal p =>
      exact (h.tolerates [p.block.parent]).handleProposal hn (fun _ => List.mem_singleton.mpr rfl)
        fun hc => h.acceptProposal _ (hview _ _ (.proposed p hc))
    | vote v => exact hvote v rfl
    | viewChange vc =>
      exact (h.tolerates []).handleViewChange hn fun hc =>
        h.countVC vc hn fun set _ hset hq => hview _ _ (.counted vc set hc hset hq)
    | fetch f => exact (h.tolerates []).handleFetch f hn
    | block bm =>
      exact handleBlock_keeps hn (fun _ => h.write hn rfl) fun _ => h.addBlockLocked bm.block hn
    | getBlocks g => exact (h.tolerates []).handleGetBlocks g hn
    | blockBatch bb =>
      exact (h.tolerates [bb.target]).handleBlockBatch hn (fun _ => List.mem_singleton.mpr rfl)
        fun _ => foldl_insertBatchBlock_keeps (fun _ cur hm => h.inward.addBlockTurn cur hm) _ (n, []) hn

/-- **A call keeps what is inert**, if the views it may enter do, and a block it may build. -/
theorem Inert.handle (h : Inert P) (inp : Input) (hn : P n)
    (hspent : ∀ b ∈ n.building inp, P { n with freshBase := false })
    (henter : ∀ view epoch, Entry E n inp view epoch → n.view < view →
      P (n.enterViewLockedEpoch view epoch)) : P (n.handle E C inp) := by
  refine h.passive.handle inp hn (fun v _ => h.handleVote v hn) ?_ henter
  rintro cmd rfl
  exact h.propose cmd hn hspent

end Calls

/-! ## 5. Seats -/

/-- The view a replica is in and the leader it has for it. -/
def Replica.seat (n : Replica) : ℕ × String × String := (n.view, n.leader, n.leader0)

section Seats

variable {E : Env} {C : Ctx} {n : Replica}

theorem inert_seat (Q : ℕ × String × String → Prop) : Inert fun n => Q n.seat where
  write := by
    intro n m hn hm
    rw [hm]
    exact hn
  activate := fun _ hn => hn

theorem sendAll_panicked : ∀ (msgs : List (String × Message)) (n : Replica),
    (n.sendAll msgs).panicked = n.panicked
  | [], _ => rfl
  | m :: msgs, n => sendAll_panicked msgs (n.emit (.send m.1 m.2))

/-- A proposal that passes the tests and is of a later view seats the replica there. -/
theorem handleProposal_seat {p : Proposal} (hc : n.considers E p = true)
    (hlt : n.view < p.block.view) :
    (n.handle E C (.deliver (.proposal p))).seat = (p.block.view,
      (n.leaderOfEpoch p.block.epoch p.block.view).getD n.leader, n.leader0) := by
  have h := (inert_seat fun x => x = (p.block.view,
    (n.leaderOfEpoch p.block.epoch p.block.view).getD n.leader, n.leader0)).passive
  rw [handleProposal_considers hc]
  refine (h.tolerates []).sendAll _ (h.acceptProposal _ ?_)
  rw [enterViewLockedEpoch_of_lt hlt]
  rfl

/-- A view whose leader cannot be computed is the process's last. -/
theorem handle_panicked {inp : Input} {view epoch : ℕ} (he : Entry E n inp view epoch)
    (hlt : n.view < view) (hnone : n.leaderOfEpoch epoch view = none) :
    (n.handle E C inp).panicked = true := by
  have hent : (n.enterViewLockedEpoch view epoch).panicked = true := by
    rw [enterViewLockedEpoch_of_lt hlt, hnone]
    rfl
  cases he with
  | suspected hagain =>
    change (n.startViewChange E C).panicked = true
    unfold Replica.startViewChange
    simp only [hagain, if_true]
    have hent : (n.enterViewLocked (u64 (n.view + 1))).panicked = true := hent
    rw [if_pos hent]
    exact hent
  | counted vc set hc hset _ =>
    -- a view change is counted by the leader of its view
    simp [Replica.counts, hset, hnone] at hc
  | proposed p hc =>
    rw [handleProposal_considers hc]
    rw [sendAll_panicked]
    unfold Replica.acceptProposal
    rw [if_pos hent]
    exact hent

/-- **A call keeps the seat or enters a later view.** -/
theorem handle_seat (inp : Input) (n : Replica) :
    (n.handle E C inp).seat = n.seat ∨ ∃ view epoch, Entry E n inp view epoch ∧ n.view < view ∧
      (n.handle E C inp).seat = (view, (n.leaderOfEpoch epoch view).getD n.leader, n.leader0) := by
  refine (inert_seat fun x => x = n.seat ∨ ∃ view epoch, Entry E n inp view epoch ∧
    n.view < view ∧ x = (view, (n.leaderOfEpoch epoch view).getD n.leader, n.leader0)).handle inp
      (Or.inl rfl) (fun _ _ => Or.inl rfl) fun view epoch he hlt => ?_
  rw [enterViewLockedEpoch_of_lt hlt]
  exact Or.inr ⟨view, epoch, he, hlt, rfl⟩

end Seats

end Cachey.HotStuff
