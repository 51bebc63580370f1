/-
# Every call of the engine is a sequence of moves

`handle_moves`: for any state whose parked blocks are sound and any input, `handle` is a sequence
of the moves of `Cachey.HotStuff.Moves` within the scope of the call, and the parked blocks stay
sound.  No assumption is made on the sender of a message or on the signatures in it.
-/
import Cachey.HotStuff.Moves

namespace Cachey.HotStuff

/-- Parked blocks are sound and stand under their parent. -/
def ParkedSound (n : Replica) : Prop := Parked (fun id b => b.parent = id ∧ b.Sound) n

section

variable {E : Env} {C : Ctx} {S : Scope} {n n' : Replica} {roots : List BlockID} {b : Block}
  {vc : ViewChange}

/-! ## 1. Beside the point -/

theorem Aside.enterViewLockedEpoch (view epoch : ℕ) (n : Replica) :
    Aside n (n.enterViewLockedEpoch view epoch) := by
  unfold Replica.enterViewLockedEpoch
  split
  · exact Aside.refl n
  next hgt =>
    have hle : n.view ≤ view := by omega
    split
    · exact Aside.of_bookkeeping n rfl hle fun _ => rfl
    · exact Aside.of_bookkeeping n rfl hle fun h => h

theorem ParkedSound.congr (h : ParkedSound n) (hp : n'.pendingBlocks = n.pendingBlocks) :
    ParkedSound n' := by
  unfold ParkedSound Parked
  rw [hp]
  exact h

theorem Moves.beside {n₀ : Replica} (h : Moves E S n₀ n ∧ ParkedSound n) (ha : Aside n n')
    (hp : n'.pendingBlocks = n.pendingBlocks) : Moves E S n₀ n' ∧ ParkedSound n' :=
  ⟨h.1.trans ha.moves, h.2.congr hp⟩

theorem Moves.tolerates (E : Env) (S : Scope) (n₀ : Replica) (ids : List BlockID) :
    Tolerates ids fun m => Moves E S n₀ m ∧ ParkedSound m where
  note := by
    intro n m hn hm hp
    refine Moves.beside hn (Aside.of_bookkeeping n ?_ ?_ hp) ?_ <;> rw [hm]
  fetch := fun _ _ _ hn =>
    Moves.beside hn (Aside.of_bookkeeping _ rfl (le_refl _) fun h => h) rfl
  sync := fun _ _ _ _ _ hn =>
    Moves.beside hn (Aside.of_bookkeeping _ rfl (le_refl _) fun h => h) rfl
  answered := fun _ hn => Moves.beside hn (Aside.of_bookkeeping _ rfl (le_refl _) fun h => h) rfl
  activate := fun _ hn => Moves.beside hn (Aside.of_bookkeeping _ rfl (le_refl _) fun h => h) rfl
  send := fun _ _ hn => Moves.beside hn (Aside.emit _ rfl rfl) rfl
  signed := by
    intro n m hm hn
    refine Moves.beside hn (Aside.emit _ ?_ rfl) rfl
    cases m with
    | vote h id v => exact absurd rfl (hm h id v)
    | _ => rfl

/-! ## 2. The scope of an insertion -/

/-- Blocks that are inserted with what hangs below them: the scope is prepared for it. -/
theorem Accepting.of_scope {inp : Input} (hP : ParkedSound n)
    (hb : ∀ b ∈ n.below roots, b ∈ n.incoming E C inp)
    (ha : n.adoptions E C inp = n.awaiting (n.incoming E C inp)) :
    Accepting (n.scope E C inp) roots n where
  folds := fun b hb => List.mem_append_left _ (List.mem_map_of_mem hb)
  awaits := by
    intro qc hw hlt hmem
    change qc ∈ n.adoptions E C inp
    rw [ha]
    unfold Replica.awaiting
    rw [hw]
    have hcond : n.qcHigh.height < qc.height ∧
        qc.nodeID ∈ (n.incoming E C inp).map (·.id) := ⟨hlt, hmem⟩
    simp [hcond.1, List.mem_map.mp hcond.2]
  parked := by
    intro id l hl b hbl
    obtain ⟨hp, hs⟩ := hP id l hl b hbl
    refine ⟨hp, hs, fun ⟨x, hx, hxa⟩ => hb b ?_⟩
    refine List.mem_filter.mpr ⟨List.mem_flatten.mpr ⟨l, GoMap.mem_values_of_lookup hl, hbl⟩, ?_⟩
    exact List.any_eq_true.mpr ⟨x, hx, by simpa using hxa⟩

theorem Accepting.parkedSound (h : Accepting S roots n) : ParkedSound n :=
  fun id l hl b hb => ⟨(h.parked id l hl b hb).1, (h.parked id l hl b hb).2.1⟩

theorem Accepting.aside (h : Accepting S roots n) (ha : Aside n n')
    (hp : n'.pendingBlocks = n.pendingBlocks) (hw : n'.wantBase = n.wantBase) :
    Accepting S roots n' where
  folds := h.folds
  awaits := h.awaits.later (Or.inr hw) (by rw [ha.qcHigh])
  parked := by
    unfold Parked
    rw [hp]
    exact h.parked

theorem castVote_pendingBlocks (b : Block) (n : Replica) :
    (n.castVote E b).1.pendingBlocks = n.pendingBlocks := by
  rcases castVote_eq (E := E) b n with h | ⟨_, w, o, h⟩ <;> rw [h]

/-! ## 3. Proposals -/

theorem epochGate_congr (hb : n'.blocks = n.blocks) (hs : n'.sets = n.sets)
    (hg : n'.gcBase = n.gcBase) : n'.epochGate E b = n.epochGate E b := by
  unfold Replica.epochGate Replica.epochAndSetOfLocked Replica.path
  rw [hb, hs, hg]

theorem acceptProposal_moves {p : Proposal} {qc : QC} (hP : ParkedSound n)
    (c : Considered E n p qc) (m : Replica)
    (hm : m = n.enterViewLockedEpoch p.block.view p.block.epoch) :
    Moves E (n.scope E C (.deliver (.proposal p))) n (m.acceptProposal E p.block).1 ∧
      ParkedSound (m.acceptProposal E p.block).1 := by
  have hside : Aside n m := hm ▸ Aside.enterViewLockedEpoch _ _ n
  obtain ⟨v, l, a, k, hev⟩ := enterViewLockedEpoch_eq p.block.view p.block.epoch n
  have hpend : m.pendingBlocks = n.pendingBlocks := by rw [hm, hev]
  have hwant : m.wantBase = n.wantBase := by rw [hm, hev]
  have hsafe : m.safeNode p.block = n.safeNode p.block := by rw [hm, hev]; rfl
  unfold Replica.acceptProposal
  split
  · exact ⟨hside.moves, hP.congr hpend⟩
  split
  · exact ⟨hside.moves, hP.congr hpend⟩
  next hs =>
    have hacc : n.accepts E p = true := c.accepts (by simpa [hsafe] using hs)
    have hinc : n.incoming E C (.deliver (.proposal p)) = p.block :: n.below [p.block.id] := by
      simp [Replica.incoming, hacc]
    have hA : Accepting (n.scope E C (.deliver (.proposal p))) [p.block.id] n :=
      Accepting.of_scope hP (fun b hb => hinc ▸ List.mem_cons_of_mem _ hb) rfl
    have hsound : p.block.Sound := ⟨c.addressed, qc, c.justify, c.names⟩
    have hmem : p.block ∈ (n.scope E C (.deliver (.proposal p))).inserts := by
      change p.block ∈ n.incoming E C (.deliver (.proposal p))
      rw [hinc]
      exact List.mem_cons_self
    have hl : Listed (n.scope E C (.deliver (.proposal p))) [p.block.id] m p.block :=
      ⟨hmem, hsound, fun _ => Or.inr (by rw [hside.blocks]; exact c.parentIn), p.block.id, by simp,
        p.block.id.self_mem_ancestors⟩
    obtain ⟨h₁, a₁, g₁⟩ := (hA.aside hside hpend hwant).addBlockLocked (E := E) hl
    have hin := g₁ ((epochGate_congr hside.blocks hside.sets hside.gcBase).trans c.gate)
    refine ⟨(hside.moves.trans h₁).trans (Move.vote p.block hmem hsound hin).moves, ?_⟩
    exact a₁.parkedSound.congr (castVote_pendingBlocks _ _)

theorem handleProposal_moves (hP : ParkedSound n) (p : Proposal) :
    Moves E (n.scope E C (.deliver (.proposal p))) n (n.handleProposal E C p).1 ∧
      ParkedSound (n.handleProposal E C p).1 := by
  refine (Moves.tolerates E _ n [p.block.parent]).handleProposal ⟨Moves.refl n, hP⟩
    (fun _ => List.mem_singleton.mpr rfl) fun hc => ?_
  obtain ⟨qc, c⟩ := Considered.of_considers hc
  exact acceptProposal_moves hP c _ rfl

/-! ## 4. Votes -/

/-- Recording a vote; a completed quorum folds a certificate of the block voted for. -/
theorem voteForBlockLocked_moves (v : Vote)
    (hf : ∀ blk, n.blocks.lookup v.nodeID = some blk → n.completes v.nodeID blk.epoch = true →
      v.nodeID ∈ S.folds) :
    Moves E S n (n.voteForBlockLocked E v) ∧
      (n.voteForBlockLocked E v).pendingBlocks = n.pendingBlocks := by
  have hrecord : ∀ formed, Aside n { n.recordVote v with qcFormed := formed } := fun _ =>
    Aside.of_bookkeeping n rfl (le_refl _) fun h => h
  refine voteForBlockLocked_keeps (P := fun m => Moves E S n m ∧ m.pendingBlocks = n.pendingBlocks)
    ⟨Moves.refl n, rfl⟩ (fun _ _ _ _ _ => ⟨(hrecord n.qcFormed).moves, rfl⟩)
    fun blk set hblk hset _ hfull => ?_
  have hcomp : n.completes v.nodeID blk.epoch = true := by
    have hlen := GoMap.len_insert_le (n.votesOn v.nodeID) v.voter v.sig
    rw [Replica.votesOn_recordVote, if_pos rfl] at hfull
    unfold Replica.completes
    rw [hset]
    exact decide_eq_true (hfull.trans hlen)
  refine ⟨(hrecord _).moves.trans (Move.fold _ (hf blk hblk hcomp) fun _ => ?_).moves,
    (Folding.onNewQCLocked (E := E) _ _).pendingBlocks⟩
  exact Or.inr (GoMap.mem_iff_lookup.mpr ⟨blk, hblk⟩)

theorem handleVote_moves (hP : ParkedSound n) (v : Vote) :
    Moves E (n.scope E C (.deliver (.vote v))) n (n.handleVote E v) ∧
      ParkedSound (n.handleVote E v) := by
  unfold Replica.handleVote
  split
  next hl =>
    obtain ⟨h, hp⟩ := voteForBlockLocked_moves (E := E) (n := n)
      (S := n.scope E C (.deliver (.vote v))) v (by
        intro blk hblk hc
        refine List.mem_append_right _ ?_
        simp [Replica.forming, hblk, hl, hc])
    exact ⟨h, hP.congr hp⟩
  · exact ⟨Moves.refl n, hP⟩

theorem persistRecordLocked_head (pe : PersistEntry) (n : Replica) (f : Bool) (h : BlockID) :
    ({ n with freshBase := f, head := h } : Replica).persistRecordLocked pe =
      { n.persistRecordLocked pe with freshBase := f, head := h } := by
  unfold Replica.persistRecordLocked Replica.persistLocked
  split <;> rfl

/-- The state in which the leader's own vote is counted. -/
def Replica.proposed (E : Env) (cmd : Bytes) (n : Replica) : Replica :=
  let b := n.nextBlock cmd
  (({ n.record b with freshBase := false, head := b.id } : Replica).sign E
    (.vote b.height b.id n.id)).1

theorem proposed_eq (cmd : Bytes) (n : Replica) : ∃ w o, n.proposed E cmd = { n with
    blocks := n.blocks.insert (n.nextBlock cmd).id (n.nextBlock cmd)
    freshBase := false, head := (n.nextBlock cmd).id, writes := w, out := o } := by
  obtain ⟨w, o, h⟩ := record_eq (n.nextBlock cmd) n
  unfold Replica.proposed
  dsimp only
  rw [h]
  exact ⟨w, _, rfl⟩

theorem proposed_moves (cmd : Bytes) (hown : n.nextBlock cmd ∈ S.owns)
    (hready : n.qcHigh.nodeID = n.head)
    (hnew : S.fresh → (n.nextBlock cmd).id ∉ n.blocks) : Moves E S n (n.proposed E cmd) := by
  refine (Move.own cmd hown hready hnew).moves.trans (Aside.moves ?_)
  exact Aside.of_bookkeeping _ rfl (le_refl _) fun h => h

/-- The leader's vote for its own block. -/
def Replica.ownVote (E : Env) (cmd : Bytes) (n : Replica) : Vote :=
  { height := (n.nextBlock cmd).height, nodeID := (n.nextBlock cmd).id, voter := n.id,
    sig := E.sign n.priv (.vote (n.nextBlock cmd).height (n.nextBlock cmd).id n.id) }

theorem proposeLocked_eq (cmd : Bytes) (n : Replica) : ∃ e p,
    Effect.isKey e = false ∧ Effect.isDelivery e = false ∧
    n.proposeLocked E C cmd =
      (((n.proposed E cmd).voteForBlockLocked E (n.ownVote E cmd)).emit e, p) ∧
    p.viewChanges = (fun m : Replica =>
      if m.view > 0 then C.scan.order (m.vcsOf m.view).values else [])
        ((n.proposed E cmd).voteForBlockLocked E (n.ownVote E cmd)) := by
  obtain ⟨w, o, h⟩ := record_eq (n.nextBlock cmd) n
  have hhead := persistRecordLocked_head (.block (n.nextBlock cmd))
    { n with blocks := n.blocks.insert (n.nextBlock cmd).id (n.nextBlock cmd) } false
    (n.nextBlock cmd).id
  change _ = { n.record (n.nextBlock cmd) with freshBase := false, head := (n.nextBlock cmd).id }
    at hhead
  unfold Replica.proposeLocked Replica.proposed
  dsimp only at hhead ⊢
  rw [hhead, h]
  exact ⟨_, _, rfl, rfl, rfl, rfl⟩

theorem propose_moves (hP : ParkedSound n) (cmd : Bytes) :
    Moves E (n.scope E C (.propose cmd)) n (n.propose E C cmd).1 ∧
      ParkedSound (n.propose E C cmd).1 := by
  unfold Replica.propose
  split
  · exact ⟨Moves.refl n, hP⟩
  next hlead =>
  split
  · exact ⟨Moves.refl n, hP⟩
  next hbusy =>
    have hlead : n.id = n.leader ∧ n.active = true := by simpa [not_or] using hlead
    have hready : n.qcHigh.nodeID = n.head := by simpa using hbusy
    obtain ⟨w, o, hprop⟩ := proposed_eq (E := E) cmd n
    obtain ⟨e, p, he, hw, hloc, _⟩ := proposeLocked_eq (E := E) (C := C) cmd n
    obtain ⟨h₁, hp₁⟩ := voteForBlockLocked_moves (E := E) (n := n.proposed E cmd)
      (S := n.scope E C (.propose cmd)) (n.ownVote E cmd) (by
        intro blk hblk hc
        refine List.mem_append_right _ ?_
        rw [hprop] at hblk hc
        obtain rfl : n.nextBlock cmd = blk := by simpa [Replica.ownVote] using hblk
        have hc' : n.completes (n.nextBlock cmd).id n.epoch = true := hc
        simp [Replica.forming, Replica.ownVote, hlead.1.symm, hlead.2, hready, hc'])
    have hown : n.nextBlock cmd ∈ (n.scope E C (.propose cmd)).owns := by
      simp [Replica.scope, Replica.building, hlead.1.symm, hlead.2, hready]
    rw [hloc]
    refine (Moves.tolerates E _ n []).sendAll _ ⟨((proposed_moves cmd hown hready fun h => h).trans
      h₁).trans (Aside.emit _ he hw).moves, hP.congr ?_⟩
    exact hp₁.trans (by rw [hprop])

/-! ## 5. View changes -/

theorem vcsOf_insert (h : n'.vcs = n.vcs.insert vc.view ((n.vcsOf vc.view).insert vc.sender vc))
    (w : ℕ) :
    n'.vcsOf w = if w = vc.view then (n.vcsOf vc.view).insert vc.sender vc else n.vcsOf w := by
  unfold Replica.vcsOf
  rw [h, GoMap.lookup_insert_of]
  split <;> rfl

theorem Moves.enterViewLocked {n₀ : Replica} (h : Moves E S n₀ n ∧ ParkedSound n) (view : ℕ) :
    Moves E S n₀ (n.enterViewLocked view) ∧ ParkedSound (n.enterViewLocked view) := by
  refine Moves.beside h (Aside.enterViewLockedEpoch view n.epoch n) ?_
  obtain ⟨v, l, a, k, heq⟩ := enterViewLockedEpoch_eq view n.epoch n
  change (Replica.enterViewLockedEpoch view n.epoch n).pendingBlocks = n.pendingBlocks
  rw [heq]

theorem countVC_moves {n₀ : Replica} (h : Moves E S n₀ n ∧ ParkedSound n) (vc : ViewChange)
    (hc : vc ∈ S.collects) (ha : ∀ qc ∈ (n.addVC vc).adopting E C vc.view, qc ∈ S.adopts) :
    Moves E S n₀ (((n.addVC vc).maybeActivateLocked E C vc.view).1.sendFetch
        ((n.addVC vc).maybeActivateLocked E C vc.view).2) ∧
      ParkedSound (((n.addVC vc).maybeActivateLocked E C vc.view).1.sendFetch
        ((n.addVC vc).maybeActivateLocked E C vc.view).2) := by
  have htol := Moves.tolerates E S n₀ ((n.addVC vc).basing E C vc.view)
  refine htol.countVC vc h ⟨h.1.trans (Move.collect vc hc).moves, h.2⟩ fun h₁ =>
    htol.maybeActivateLocked h₁ (fun _ _ _ _ => Moves.enterViewLocked h₁ _) (fun _ hid => hid)
      (fun m hm => Moves.beside hm (Aside.of_bookkeeping m rfl (le_refl _) fun h => h) rfl)
      fun m hm qc hqc hin hlt => ⟨hm.1.trans (Move.adopt qc (ha qc hqc) hin hlt).moves, hm.2⟩

theorem handleViewChange_moves (hP : ParkedSound n) (vc : ViewChange) :
    Moves E (n.scope E C (.deliver (.viewChange vc))) n (n.handleViewChange E C vc) ∧
      ParkedSound (n.handleViewChange E C vc) := by
  refine (Moves.tolerates E _ n []).handleViewChange ⟨Moves.refl n, hP⟩ fun hc =>
    countVC_moves ⟨Moves.refl n, hP⟩ vc ?_ fun qc hqc => ?_
  · simp [Replica.scope, Replica.gathering, hc]
  · change qc ∈ n.adoptions E C (.deliver (.viewChange vc))
    simpa [Replica.adoptions, hc] using hqc

/-- The view change that is announced is the replica's own; the leader counts it. -/
theorem announce_spec {m : Replica} {vc : ViewChange} (h : n.announce E = some (m, vc)) :
    Aside n m ∧ vc.epoch = n.epoch ∧ vc.highQC = some n.qcHigh ∧ vc.sender = n.id ∧
      .signed vc.signable ∈ m.out ∧ (m.id = m.leader → n.startViewChange E C =
        ((m.addVC vc).maybeActivateLocked E C vc.view).1.sendFetch
          ((m.addVC vc).maybeActivateLocked E C vc.view).2) := by
  have henter : ∀ (q : Prop) [Decidable q] (t : ℕ),
      Aside n (if q then n.enterViewLocked t else n) := by
    intro q _ t
    split
    · exact Aside.enterViewLockedEpoch t n.epoch n
    · exact Aside.refl n
  have hn := henter (n.view = 0 ∨ n.view ∈ n.vcSent)
    (if n.view = 0 ∨ n.view ∈ n.vcSent then u64 (n.view + 1) else n.view)
  unfold Replica.announce at h
  unfold Replica.startViewChange
  dsimp only at h ⊢
  generalize (if n.view = 0 ∨ n.view ∈ n.vcSent then n.enterViewLocked
    (if n.view = 0 ∨ n.view ∈ n.vcSent then u64 (n.view + 1) else n.view) else n) = x at hn h ⊢
  generalize (if n.view = 0 ∨ n.view ∈ n.vcSent then u64 (n.view + 1) else n.view) = t at h ⊢
  split at h
  · cases h
  next hp =>
  split at h
  · cases h
  next ht =>
  have hsign : Aside x (({ x with vcSent := t :: x.vcSent } : Replica).sign E
      (.viewChange t x.epoch (some x.qcHigh) x.id)).1 := by
    refine Aside.trans (b := { x with vcSent := t :: x.vcSent }) ?_ (Aside.emit _ rfl rfl)
    exact Aside.of_bookkeeping x rfl (le_refl _) fun h => h
  obtain ⟨rfl, rfl⟩ := Prod.mk.inj (Option.some.inj h)
  rw [if_neg hp, if_neg ht]
  exact ⟨hn.trans hsign, hn.epoch, congrArg some hn.qcHigh, hn.id, List.mem_cons_self,
    fun hl => if_pos hl⟩

/-- **The view change a call stores** is a received one that counts, or the replica's own; the call
is to count it. -/
theorem gathering_spec {inp : Input} {m : Replica} {vc : ViewChange}
    (h : n.gathering E inp = some (m, vc)) :
    Aside n m ∧ vc.epoch = n.epoch ∧
      n.handle E C inp = ((m.addVC vc).maybeActivateLocked E C vc.view).1.sendFetch
        ((m.addVC vc).maybeActivateLocked E C vc.view).2 ∧
      ((inp = .deliver (.viewChange vc) ∧ n.counts E vc = true) ∨
        (vc.highQC = some n.qcHigh ∧ vc.sender = n.id ∧ .signed vc.signable ∈ m.out)) := by
  unfold Replica.gathering at h
  split at h
  · obtain ⟨han, hl⟩ := Option.filter_eq_some_iff.mp h
    obtain ⟨ha, hep, hq, hs, hout, hcall⟩ := announce_spec (C := C) han
    exact ⟨ha, hep, hcall (by simpa using hl), Or.inr ⟨hq, hs, hout⟩⟩
  · split at h
    next hc =>
      obtain ⟨rfl, rfl⟩ := Prod.mk.inj (Option.some.inj h)
      refine ⟨Aside.refl n, ?_, handleViewChange_eq hc, Or.inl ⟨rfl, hc⟩⟩
      simp only [Replica.counts, Bool.and_eq_true, decide_eq_true_eq] at hc
      exact hc.1
    · cases h
  · cases h

theorem startViewChange_moves (hP : ParkedSound n) :
    Moves E (n.scope E C .startViewChange) n (n.startViewChange E C) ∧
      ParkedSound (n.startViewChange E C) := by
  refine (Moves.tolerates E _ n []).startViewChange ⟨Moves.refl n, hP⟩
    (fun _ => Moves.enterViewLocked ⟨Moves.refl n, hP⟩ _)
    fun m vc han hl _ _ hm => countVC_moves hm vc ?_ fun qc hqc => ?_
  · simp [Replica.scope, Replica.gathering, han, hl]
  · change qc ∈ n.adoptions E C .startViewChange
    simpa [Replica.adoptions, han, hl] using hqc

/-! ## 6. Fetched blocks and batches -/

theorem Block.Sound.of_admitted {now : ℕ} (h : n.blockAdmitted E now b = true) : b.Sound := by
  unfold Replica.blockAdmitted at h
  cases hj : b.justify with
  | none => simp [hj] at h
  | some qc =>
    simp only [hj, Bool.and_eq_true, decide_eq_true_eq] at h
    exact ⟨h.1.1.1.1, qc, hj, h.2.1.2⟩

theorem handleBlock_moves (hP : ParkedSound n) (bm : BlockMsg) :
    Moves E (n.scope E C (.deliver (.block bm))) n (n.handleBlock E C bm).1 ∧
      ParkedSound (n.handleBlock E C bm).1 := by
  refine handleBlock_keeps (P := fun m => Moves E (n.scope E C (.deliver (.block bm))) n m ∧
    ParkedSound m) ⟨Moves.refl n, hP⟩ (fun hadm => ⟨Aside.moves ?_, ?_⟩) fun htakes => ?_
  · exact Aside.of_bookkeeping n rfl (le_refl _) fun h => h
  · exact Parked.push hP ⟨rfl, Block.Sound.of_admitted hadm⟩
  have hinc : n.incoming E C (.deliver (.block bm)) = bm.block :: n.below [bm.block.id] := by
    simp [Replica.incoming, htakes]
  have hA : Accepting (n.scope E C (.deliver (.block bm))) [bm.block.id] n :=
    Accepting.of_scope hP (fun b hb => hinc ▸ List.mem_cons_of_mem _ hb) rfl
  have hmem : bm.block ∈ n.incoming E C (.deliver (.block bm)) := by
    rw [hinc]
    exact List.mem_cons_self
  simp only [Replica.takesBlock, Bool.and_eq_true, Bool.or_eq_true, decide_eq_true_eq] at htakes
  obtain ⟨h₁, a₁, _⟩ := hA.addBlockLocked (E := E) ⟨hmem, Block.Sound.of_admitted htakes.1.2,
    fun _ => htakes.2, bm.block.id, by simp, bm.block.id.self_mem_ancestors⟩
  exact ⟨h₁, a₁.parkedSound⟩

/-- The blocks of a sound batch are sound, and each stands on the one before. -/
theorem batchSound_cons {prev : Option BlockID} {prevH we : ℕ} {rest : List Block}
    (h : Replica.batchSound E n prev prevH we (b :: rest) = true) :
    b.Sound ∧ (∀ id, prev = some id → b.parent = id) ∧
      Replica.batchSound E n (some b.id) b.height b.epoch rest = true := by
  unfold Replica.batchSound at h
  cases hj : b.justify with
  | none => simp [hj] at h
  | some qc =>
    simp only [hj, Bool.and_eq_true, decide_eq_true_eq] at h
    obtain ⟨⟨⟨haddr, hprev⟩, hqc⟩, hrest⟩ := h
    refine ⟨⟨haddr, qc, hj, hqc.1.1.1.2⟩, fun id hid => ?_, hrest⟩
    subst hid
    simpa using hprev

theorem insertBatchBlock_fst (kids : List Proposal) (b : Block) (n : Replica) :
    (Replica.insertBatchBlock E (n, kids) b).1 = (Replica.insertBatchBlock E (n, []) b).1 := by
  unfold Replica.insertBatchBlock
  split <;> rfl

theorem Accepting.foldl_insertBatchBlock {n₀ : Replica} :
    ∀ (bs : List Block) (prev : Option BlockID) (prevH we : ℕ) (n : Replica)
      (kids : List Proposal), Accepting S roots n →
    (∀ b ∈ bs, b ∈ S.inserts ∧ b.id ∈ roots) → Replica.batchSound E n₀ prev prevH we bs = true →
    (∀ b ∈ bs.head?, S.linked → b.parent = noID ∨ b.parent ∈ n.blocks) →
    (S.linked → Replica.gapless E bs n = true) →
    Moves E S n (bs.foldl (Replica.insertBatchBlock E) (n, kids)).1 ∧
      Accepting S roots (bs.foldl (Replica.insertBatchBlock E) (n, kids)).1
  | [], _, _, _, n, _, h, _, _, _, _ => ⟨Moves.refl n, h⟩
  | b :: rest, prev, prevH, we, n, kids, h, hmem, hsound, hpar, hgap => by
    obtain ⟨hs, _, hrest⟩ := batchSound_cons hsound
    obtain ⟨hb, hbr⟩ := hmem b List.mem_cons_self
    -- the block is known, refused by the gate, or inserted
    have hone : Moves E S n (Replica.insertBatchBlock E (n, kids) b).1 ∧
        Accepting S roots (Replica.insertBatchBlock E (n, kids) b).1 ∧
        (b.id ∈ n.blocks ∨ n.epochGate E b = true →
          b.id ∈ (Replica.insertBatchBlock E (n, kids) b).1.blocks) := by
      unfold Replica.insertBatchBlock
      split
      next hin => exact ⟨Moves.refl n, h, fun _ => hin⟩
      next hnot =>
        obtain ⟨h₁, a₁, g₁⟩ := h.addBlockLocked (E := E)
          ⟨hb, hs, hpar b rfl, b.id, hbr, b.id.self_mem_ancestors⟩
        exact ⟨h₁, a₁, fun hor => g₁ (hor.resolve_left hnot)⟩
    obtain ⟨h₁, a₁, g₁⟩ := hone
    have hnext : S.linked → (∀ c ∈ rest.head?, c.parent = noID ∨
          c.parent ∈ (Replica.insertBatchBlock E (n, kids) b).1.blocks) ∧
        Replica.gapless E rest (Replica.insertBatchBlock E (n, kids) b).1 = true := by
      intro hlink
      have hgap := hgap hlink
      cases rest with
      | nil => exact ⟨by simp, rfl⟩
      | cons c rest =>
        simp only [Replica.gapless, Bool.and_eq_true, Bool.or_eq_true, decide_eq_true_eq] at hgap
        refine ⟨fun x hx => ?_, by rw [insertBatchBlock_fst]; exact hgap.2⟩
        obtain rfl : c = x := by simpa using hx
        rw [(batchSound_cons hrest).2.1 b.id rfl]
        exact Or.inr (g₁ hgap.1)
    obtain ⟨h₂, a₂⟩ := Accepting.foldl_insertBatchBlock rest (some b.id) b.height b.epoch
      (Replica.insertBatchBlock E (n, kids) b).1 (Replica.insertBatchBlock E (n, kids) b).2 a₁
      (fun x hx => hmem x (List.mem_cons_of_mem _ hx)) hrest
      (fun x hx hlink => (hnext hlink).1 x hx) (fun hlink => (hnext hlink).2)
    exact ⟨h₁.trans h₂, a₂⟩

theorem handleBlockBatch_moves (hP : ParkedSound n) (bb : BlockBatch) :
    Moves E (n.scope E C (.deliver (.blockBatch bb))) n (n.handleBlockBatch E C bb).1 ∧
      ParkedSound (n.handleBlockBatch E C bb).1 := by
  refine (Moves.tolerates E _ n [bb.target]).handleBlockBatch ⟨Moves.refl n, hP⟩
    (fun _ => List.mem_singleton.mpr rfl) fun htakes => ?_
  obtain ⟨lowest, rest, anchor, hbb, hanchor, hsound⟩ := of_takesBatch htakes
  have hinc : n.incoming E C (.deliver (.blockBatch bb)) =
      bb.blocks ++ n.below (bb.blocks.map (·.id)) := by
    simp [Replica.incoming, htakes]
  have hA : Accepting (n.scope E C (.deliver (.blockBatch bb))) (bb.blocks.map (·.id)) n :=
    Accepting.of_scope hP (fun b hb => hinc ▸ List.mem_append_right _ hb) rfl
  obtain ⟨h₁, a₁⟩ := hA.foldl_insertBatchBlock bb.blocks none anchor.height anchor.epoch n []
    (fun b hb => ⟨by
      change b ∈ n.incoming E C (.deliver (.blockBatch bb))
      rw [hinc]
      exact List.mem_append_left _ hb, List.mem_map_of_mem hb⟩) hsound (by
      intro b hb _
      obtain rfl : lowest = b := by simpa [hbb] using hb
      exact Or.inr (GoMap.mem_iff_lookup.mpr ⟨anchor, hanchor⟩)) (fun hlink => hlink htakes)
  exact ⟨h₁, a₁.parkedSound⟩

/-! ## 7. Every call -/

/-- **Every call is a sequence of moves within its scope.** -/
theorem handle_moves (hP : ParkedSound n) (inp : Input) :
    Moves E (n.scope E C inp) n (n.handle E C inp) ∧ ParkedSound (n.handle E C inp) := by
  cases inp with
  | propose cmd => exact propose_moves hP cmd
  | startViewChange => exact startViewChange_moves hP
  | requestBlock peer id =>
    exact (Moves.tolerates E _ n [id]).requestBlock peer (List.mem_singleton.mpr rfl)
      ⟨Moves.refl n, hP⟩
  | deliver m =>
    cases m with
    | proposal p => exact handleProposal_moves hP p
    | vote v => exact handleVote_moves hP v
    | viewChange vc => exact handleViewChange_moves hP vc
    | fetch f => exact (Moves.tolerates E _ n []).handleFetch f ⟨Moves.refl n, hP⟩
    | block bm => exact handleBlock_moves hP bm
    | getBlocks g => exact (Moves.tolerates E _ n []).handleGetBlocks g ⟨Moves.refl n, hP⟩
    | blockBatch bb => exact handleBlockBatch_moves hP bb

end

end Cachey.HotStuff
