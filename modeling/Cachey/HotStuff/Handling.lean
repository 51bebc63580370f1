/-
# The handlers keep the invariant

Every entry point of a correct replica, from `Propose` to `HandleBlockBatch`, keeps the invariant.
Two of them sign votes and extend the history by one vote, which has to be SOUND in the sense of
`Cachey.Lib.VoteChain`.  Where the code alone does not make it sound, the lemma says what is
needed of the state before the call:

* the vote is higher than every vote the replica has signed so far (`vHeight` guards a
  follower's votes only; a leader's vote for its own block does not raise it);
* the lock is not behind the highest certificate (`LockCurrent`): adopting a base in a view
  change raises `qcHigh` without the lock;
* the certificates folded have gap-free commit chains (`FoldSafe`).
-/
import Cachey.HotStuff.Preservation

namespace Cachey.HotStuff

open VoteChain (Voted Extends)

/-- The lock has kept up with the highest certificate. -/
def LockCurrent (n : Replica) : Prop := n.qcHigh.nodeID.parent.height ≤ n.bLock.height

section

variable {E : Env} {C : Ctx} {K : Cluster} {H : History} {X : List BlockID} {r : String}
  {n n' : Replica} {id : BlockID} {e : VoteChain.Vote String BlockID} {b : Block} {qc : QC}

/-! ## 1. A new vote -/

/-- A vote, by this replica or another, does not disturb what a replica keeps. -/
theorem ReplicaInv.extend (h : ReplicaInv E K H X r n)
    (he : e.voter = r → e.block ∈ n.blocks ∧ e.lockAfter ≤ n.bLock.height) :
    ReplicaInv E K (e :: H) X r n :=
  have sub : ∀ x ∈ H, x ∈ e :: H := fun _ hx => List.mem_cons_of_mem _ hx
  { me := h.me
    sets := h.sets
    set0 := h.set0
    base := h.base
    tree := h.tree.mono sub
    parked := fun id l hl b hb => ⟨(h.parked id l hl b hb).1, (h.parked id l hl b hb).2.mono sub⟩
    high := h.high.mono sub
    highIn := h.highIn
    lockIn := h.lockIn
    lockLe := h.lockLe
    execIn := h.execIn
    execCommitted := h.execCommitted.mono (List.suffix_cons _ _)
    want := fun qc hqc => (h.want qc hqc).mono sub
    vcs := fun view m hm s vc hvc qc hqc => (h.vcs view m hm s vc hvc qc hqc).mono sub
    votes := fun id m hm v s hs => ⟨(h.votes id m hm v s hs).1,
      fun hc => ((h.votes id m hm v s hs).2 hc).mono sub⟩
    votesIn := h.votesIn
    mine := fun x hx hv => by
      rcases List.mem_cons.mp hx with rfl | hx
      · exact he hv
      · exact h.mine x hx hv
    signed := fun hh id v hm =>
      ⟨(h.signed hh id v hm).1, (h.signed hh id v hm).2.1, (h.signed hh id v hm).2.2.mono sub⟩
    ledger := h.ledger }

theorem ReplicaInv.signVote (h : ReplicaInv E K H X r n) (hv : Voted H r id) :
    ReplicaInv E K H X r (n.emit (.signed (.vote id.height id r))) :=
  { h with
    signed := fun hh i v hm => by
      rcases List.mem_cons.mp hm with heq | hm
      · obtain ⟨rfl, rfl, rfl⟩ := Prod.mk.injEq _ _ _ _ ▸ heq
        exact ⟨rfl, rfl, hv⟩
      · exact h.signed hh i v hm
    ledger := by
      have : execsOf (n.emit (.signed (.vote id.height id r))).out = execsOf n.out := rfl
      rw [this]
      exact h.ledger }

/-- What a handler leaves behind: a sound history, at most by one signed vote longer, and the
invariant. -/
def Handled (E : Env) (K : Cluster) (H : History) (X : List BlockID) (r : String) (n' : Replica) :
    Prop :=
  ∃ H', K.world.History H' ∧
    (H' = H ∨ ∃ e, e.voter = r ∧ H' = e :: H ∧ ∃ h v, (h, e.block, v) ∈ votesOf n'.out) ∧
    ReplicaInv E K H' X r n'

theorem Handled.quiet (h : Handled E K H X r n) (q : Quiet n n') : Handled E K H X r n' := by
  obtain ⟨H', h₁, h₂, h₃⟩ := h
  exact ⟨H', h₁, by rw [q.signed]; exact h₂, h₃.quiet q⟩

theorem ReplicaInv.handled (hH : K.world.History H) (h : ReplicaInv E K H X r n) :
    Handled E K H X r n :=
  ⟨H, hH, Or.inl rfl, h⟩

/-! ## 2. Following a proposal -/

/-- What safeNode accepts has its parent at least as high as the lock. -/
theorem ReplicaInv.safeNode (hH : K.world.History H) (h : ReplicaInv E K H X r n) (hf : Fit K H E b)
    (hp : b.parent ∈ n.blocks) (hs : n.safeNode b = true) : n.bLock.height ≤ b.parent.height := by
  obtain ⟨lock, hl⟩ := GoMap.mem_iff_lookup.mp h.lockIn
  have hlid := (h.tree.node _ lock hl).1
  obtain ⟨qc, hj, hn, hq⟩ := hf.justified
  have hlh : lock.height = n.bLock.height := by
    have := h.tree.heightOf h.lockIn
    simpa [Replica.heightOf, hl] using this
  simp only [Replica.safeNode, hl, hj, Bool.or_eq_true, decide_eq_true_eq] at hs
  rcases hs with hx | hgt
  · have hext := h.tree.extendsLocked hf hp hx
    rw [hlid] at hext
    exact hf.parent_certified.height_le_of_extends K.faultBound hH hext
  · rw [hq.1, hn, hlh] at hgt
    exact le_of_lt hgt

/-- The lock a vote leaves behind follows a certificate at least as high as the parent's. -/
theorem Folded.lockFollows (h : ReplicaInv E K H X r n) (hq : Certifies K H qc)
    (hf : Folded n n' qc) (hl : qc.nodeID.height ≤ n.qcHigh.height → LockCurrent n)
    (hle : n.bLock.height ≤ n'.bLock.height) :
    ∃ q, K.world.Certified H q ∧ qc.nodeID.height ≤ q.height ∧
      q.parent.height ≤ n'.bLock.height := by
  rcases Nat.lt_or_ge n.qcHigh.height qc.height with hlt | hge
  · exact ⟨qc.nodeID, hq.2, le_refl _, hf.lock hlt⟩
  · refine ⟨n.qcHigh.nodeID, h.high.2, ?_, (hl (hq.1 ▸ hge)).trans hle⟩
    rw [← hq.1, ← h.high.1]
    exact hge

/-- What a vote for `b` requires: the votes before it are lower, and the lock has kept up, unless
the certificate in `b` is about to raise it. -/
def MayVote (H : History) (r : String) (n : Replica) (b : Block) : Prop :=
  (∀ e ∈ H, e.voter = r → e.block.height < b.height) ∧
    (b.parent.height ≤ n.qcHigh.height → LockCurrent n)

theorem ReplicaInv.acceptProposal (hr : K.Correct r) (hH : K.world.History H)
    (h : ReplicaInv E K H X r n) (hf : Fit K H E b) (hp : b.parent ∈ n.blocks)
    (hj : b.justify = some qc) (hv : n.qcValid E qc = true) (hgate : n.epochGate E b = true)
    (hnew : b.id ∉ n.blocks) (hs : FoldSafe K H n b.parent)
    (hP : Parked (fun _ => Releasable K H n [b.id]) n)
    (hmay : n.safeNode b = true → n.vHeight < b.height → MayVote H r n b) :
    Handled E K H X r (n.acceptProposal E b).1 := by
  unfold Replica.acceptProposal
  split
  · exact h.handled hH
  split
  · exact h.handled hH
  next hsafe =>
    have hsafe : n.safeNode b = true := by simpa using hsafe
    obtain ⟨h₁, g₁, _, f₁⟩ := h.addBlockLocked hH (Forward.refl n)
      (List.mem_singleton.mpr rfl) hf hp hs hP
    obtain ⟨hin, hfold⟩ := f₁ hgate hnew
    obtain ⟨qc', hj', hn, hq⟩ := hf.justified
    obtain rfl : qc' = qc := Option.some.inj (hj'.symm.trans hj)
    dsimp only
    generalize (n.addBlockLocked E b).1 = m at h₁ g₁ hin hfold
    unfold Replica.castVote
    split
    · exact h₁.handled hH
    next hvh =>
      have hvh : n.vHeight < b.height := by rw [g₁.vHeight] at hvh; omega
      have h₂ : ReplicaInv E K H X r { m with vHeight := b.height } := { h₁ with }
      have q₃ := Quiet.persistLocked (.voted b.height) { m with vHeight := b.height }
      dsimp only
      split
      next => exact (h₂.quiet q₃).handled hH
      next =>
        obtain ⟨hasc, hcur⟩ := hmay hsafe hvh
        let e : VoteChain.Vote String BlockID :=
          { voter := r, block := b.id, lock := n.bLock.height, lockAfter := m.bLock.height }
        have hsound : K.world.Sound H e :=
          { correct := (K.correct_iff.mp hr).2
            ascending := fun e' he' hv' => by
              change e'.block.height < b.id.height
              rw [hf.id_height]
              exact hasc e' he' hv'
            parentCertified := by
              change K.world.Certified H b.id.parent
              rw [hf.id_parent]
              exact hf.parent_certified
            parentLower := by
              change b.id.parent.height < b.id.height
              rw [hf.id_parent, hf.id_height]
              exact hf.ascends
            respectsLock := by
              change n.bLock.height ≤ b.id.parent.height
              rw [hf.id_parent]
              exact h.safeNode hH hf hp hsafe
            lockGrows := g₁.bLock
            lockKept := fun e' he' hv' => (h.mine e' he' hv').2
            lockFollows := by
              obtain ⟨q, hqc, hqh, hql⟩ :=
                Folded.lockFollows h hq (hfold qc' hj hv) (hn ▸ hcur) g₁.bLock
              refine ⟨q, hqc, ?_, hql⟩
              change b.id.parent.height ≤ q.height
              rw [hf.id_parent, ← hn]
              exact hqh }
        have h₃ : ReplicaInv E K (e :: H) X r
            ({ m with vHeight := b.height }.persistVotedLocked b.height).1 :=
          (h₂.quiet q₃).extend fun _ => by
            change b.id ∈ (Replica.persistLocked _ _).1.blocks ∧
              m.bLock.height ≤ (Replica.persistLocked _ _).1.bLock.height
            rw [q₃.blocks, q₃.bLock]
            exact ⟨hin, le_refl _⟩
        refine ⟨e :: H, ⟨hsound, hH⟩, Or.inr ⟨e, rfl, rfl, b.height, _, List.mem_cons_self⟩, ?_⟩
        have hid : ({ m with vHeight := b.height }.persistVotedLocked b.height).1.id = r := h₃.me
        have hvoted : Voted (e :: H) r b.id := ⟨e, List.mem_cons_self, rfl, rfl⟩
        have h₄ := h₃.signVote hvoted
        rw [hf.id_height] at h₄
        rw [hid]
        exact h₄

/-! ## 3. Quiet parts -/

theorem Quiet.of_bookkeeping {m : Replica} (n : Replica) (h : m = { n with
      view := m.view, leader := m.leader, active := m.active, freshBase := m.freshBase,
      head := m.head, pending := m.pending, fetches := m.fetches, syncSeq := m.syncSeq,
      syncReqs := m.syncReqs, vcSent := m.vcSent, panicked := m.panicked,
      qcFormed := m.qcFormed }) : Quiet n m := by
  rw [h]
  exact ⟨rfl, rfl, rfl, rfl, rfl, rfl, rfl, rfl, rfl, rfl, rfl, rfl, rfl, rfl⟩

theorem Quiet.enterViewLockedEpoch (view epoch : ℕ) (n : Replica) :
    Quiet n (n.enterViewLockedEpoch view epoch) := by
  obtain ⟨v, l, a, k, h⟩ := enterViewLockedEpoch_eq view epoch n
  rw [h]
  exact Quiet.of_bookkeeping n rfl

theorem tolerates_of_quiet {P : Replica → Prop} (ids : List BlockID)
    (hquiet : ∀ {n m : Replica}, P n → Quiet n m → P m)
    (hactivate : ∀ {n : Replica} (base : QC), P n → P (n.activateWithBaseLocked base)) :
    Tolerates ids P where
  note := by
    intro n m hn hm _
    refine hquiet hn (Quiet.of_bookkeeping n ?_)
    rw [hm]
  fetch := fun _ _ _ hn => hquiet hn (Quiet.of_bookkeeping _ rfl)
  sync := fun _ _ _ _ _ hn => hquiet hn (Quiet.of_bookkeeping _ rfl)
  answered := fun _ hn => hquiet hn (Quiet.of_bookkeeping _ rfl)
  activate := hactivate
  send := fun _ _ hn => hquiet hn (Quiet.emit _ rfl)
  signed := by
    intro n m hm hn
    refine hquiet hn (Quiet.emit _ ?_)
    cases m with
    | vote h id v => exact absurd rfl (hm h id v)
    | _ => rfl

theorem ReplicaInv.tolerates (ids : List BlockID) : Tolerates ids (ReplicaInv E K H X r) :=
  tolerates_of_quiet ids (fun h q => h.quiet q) fun base h => (h.activateWithBaseLocked base).1

theorem Handled.tolerates (ids : List BlockID) : Tolerates ids (Handled E K H X r) :=
  tolerates_of_quiet ids (fun h q => h.quiet q) fun base h => by
    obtain ⟨H', h₁, h₂, h₃⟩ := h
    exact ⟨H', h₁, h₂, (h₃.activateWithBaseLocked base).1⟩

/-! ## 4. `HandleProposal` -/

/-- What `handleProposalLocked` did with a proposal it did not drop or buffer. -/
structure Considered (E : Env) (n : Replica) (p : Proposal) (qc : QC) : Prop where
  addressed : p.block.id = blockID p.block.view p.block.height p.block.parent p.block.cmd
  fresh : p.block.id ∉ n.blocks
  parentIn : p.block.parent ∈ n.blocks
  justify : p.block.justify = some qc
  valid : n.qcValid E qc = true
  names : qc.nodeID = p.block.parent
  above : n.heightOf p.block.parent < p.block.height
  gate : n.epochGate E p.block = true
  accepts : n.safeNode p.block = true → n.accepts E p = true

variable {C : Ctx} {p : Proposal}

theorem Considered.of_considers (h : n.considers E p = true) : ∃ qc, Considered E n p qc := by
  obtain ⟨hid, hfresh, hexec, ⟨parent, hparent, hjust⟩, ⟨set, hder, _, _⟩, _, _⟩ :=
    considers_iff.mp h
  unfold Replica.justified at hjust
  split at hjust
  · cases hjust
  next qc hqc =>
  simp only [Bool.and_eq_true, decide_eq_true_eq] at hjust
  refine ⟨qc, hid, hfresh, GoMap.mem_iff_lookup.mpr ⟨parent, hparent⟩, hqc, hjust.1.1,
    hjust.1.2, ?_, ?_, fun hs => ?_⟩
  · simpa [Replica.heightOf, hparent] using hjust.2
  · simp [Replica.epochGate, hder]
  · rw [Replica.accepts, h, hs]
    rfl

theorem ReplicaInv.handleProposal (hr : K.Correct r) (hH : K.world.History H)
    (h : ReplicaInv E K H X r n) (C : Ctx) (p : Proposal)
    (hbel : ∀ qc, p.block.justify = some qc → Believable K H E qc)
    (hplain : isMembershipBlock E p.block = false)
    (hs : n.accepts E p = true → FoldSafe K H n p.block.parent)
    (hP : n.accepts E p = true → Parked (fun _ => Releasable K H n [p.block.id]) n)
    (hmay : n.accepts E p = true → n.vHeight < p.block.height →
      MayVote H r n p.block) :
    Handled E K H X r (n.handleProposal E C p).1 := by
  refine (Handled.tolerates [p.block.parent]).handleProposal (h.handled hH)
    (fun _ => List.mem_singleton.mpr rfl) fun hc => ?_
  obtain ⟨qc, c⟩ := Considered.of_considers hc
  have q := Quiet.enterViewLockedEpoch p.block.view p.block.epoch n
  obtain ⟨v, l, a, k, hev⟩ := enterViewLockedEpoch_eq p.block.view p.block.epoch n
  have hq := h.certifies (hbel qc c.justify) c.valid
  have hf : Fit K H E p.block :=
    { addressed := c.addressed
      justified := ⟨qc, c.justify, c.names, hq⟩
      ascends := by rw [← h.tree.heightOf c.parentIn]; exact c.above
      plain := hplain }
  rw [hev] at q ⊢
  by_cases hsafe : n.safeNode p.block = true
  · exact (h.quiet q).acceptProposal hr hH hf c.parentIn c.justify c.valid c.gate c.fresh
      (hs (c.accepts hsafe)) (hP (c.accepts hsafe)) (fun _ => hmay (c.accepts hsafe))
  · -- refused by the lock: nothing happens
    have hsafe' : ({ n with view := v, leader := l, active := a, panicked := k } :
        Replica).safeNode p.block = false := Bool.eq_false_iff.mpr hsafe
    unfold Replica.acceptProposal
    rw [hsafe']
    split <;> exact (h.quiet q).handled hH

/-! ## 5. Aggregating votes -/

/-- The voters collected for a block are a quorum of votes when there are enough of them. -/
theorem certified_of_votes {m : GoMap String Bytes}
    (hm : ∀ voter sig, m.lookup voter = some sig → voter ∈ K.members ∧ (voter ∉ K.byzantine →
      Voted H voter id))
    (hlen : 2 * K.f + 1 ≤ m.len) : K.world.Certified H id := by
  refine Or.inr ⟨m.keys.toFinset, ?_, ?_, ?_⟩
  · intro v hv
    obtain ⟨sig, hs⟩ := GoMap.mem_iff_lookup.mp (AList.mem_keys.mpr (List.mem_toFinset.mp hv))
    exact List.mem_toFinset.mpr (hm v sig hs).1
  · rw [List.toFinset_card_of_nodup m.keys_nodup, ← GoMap.len_eq_keys]
    exact hlen
  · intro v hv hf
    obtain ⟨sig, hs⟩ := GoMap.mem_iff_lookup.mp (AList.mem_keys.mpr (List.mem_toFinset.mp hv))
    exact (hm v sig hs).2 fun hb => hf (List.mem_toFinset.mpr hb)

theorem GoMap.len_insert_le {V : Type} (m : GoMap String V) (k : String) (v : V) :
    GoMap.len (m.insert k v) ≤ m.len + 1 := by
  rw [GoMap.len_eq_keys, GoMap.len_eq_keys, AList.keys_insert]
  simp only [List.length_cons]
  have := List.length_erase_le (a := k) (l := m.keys)
  omega

/-- A vote whose signature verifies, if a correct member made it, is on record. -/
def VoteGenuine (E : Env) (K : Cluster) (H : History) (v : Vote) : Prop :=
  v.voter ∈ K.members → v.voter ∉ K.byzantine →
    E.verify (K.key E v.voter) v.signable v.sig = true → Voted H v.voter v.nodeID

theorem ReplicaInv.voteForBlockLocked (hH : K.world.History H) (h : ReplicaInv E K H X r n)
    {v : Vote} (hv : VoteGenuine E K H v)
    (hs : 2 * K.f + 1 ≤ GoMap.len ((n.votes.lookup v.nodeID).getD ∅) + 1 →
      FoldSafe K H n v.nodeID) :
    ReplicaInv E K H X r (n.voteForBlockLocked E v) ∧ Grows n (n.voteForBlockLocked E v) := by
  -- a recorded vote is genuine, like those before it
  have hrecord : ∀ blk set, n.blocks.lookup v.nodeID = some blk →
      n.sets.lookup blk.epoch = some set → v.valid E set blk.height = true →
      ReplicaInv E K H X r (n.recordVote v) := by
    intro blk set hblk hset hvalid
    have good := (h.sets _ set hset).2
    simp only [Vote.valid, Bool.and_eq_true] at hvalid
    have hmem : v.voter ∈ K.members := good.members _ hvalid.1.1
    have hver : E.verify (K.key E v.voter) v.signable v.sig = true := by
      have hkey := hvalid.2
      split at hkey
      · cases hkey
      next pub hpub => rwa [← good.keys _ _ hpub]
    refine { h with votes := fun id m hm voter sig hl => ?_, votesIn := fun id hid => ?_ }
    · change (n.votes.insert _ _).lookup id = some m at hm
      rw [GoMap.lookup_insert_of] at hm
      split at hm
      next heq =>
        subst heq
        obtain rfl := Option.some.inj hm
        rw [GoMap.lookup_insert_of] at hl
        split at hl
        next heq => exact heq ▸ ⟨hmem, fun hc => hv hmem hc hver⟩
        next =>
          unfold Replica.votesOn at hl
          cases hm : n.votes.lookup v.nodeID with
          | none => simp [hm] at hl
          | some m =>
            rw [hm] at hl
            exact h.votes _ m hm voter sig hl
      next => exact h.votes id m hm voter sig hl
    · rcases (AList.mem_insert _).mp hid with rfl | hid
      · exact GoMap.mem_iff_lookup.mpr ⟨blk, hblk⟩
      · exact h.votesIn id hid
  have hgrows : Grows n (n.recordVote v) :=
    ⟨⟨rfl, fun _ hx => hx, le_refl _, le_refl _, le_refl _, rfl, fun _ h => h⟩, rfl⟩
  refine voteForBlockLocked_keeps (P := fun m => ReplicaInv E K H X r m ∧ Grows n m)
    ⟨h, Grows.refl n⟩ (fun blk set hblk hset hvalid => ⟨hrecord blk set hblk hset hvalid, hgrows⟩)
    fun blk set hblk hset hvalid hfull => ?_
  have h₁ := hrecord blk set hblk hset hvalid
  have hknown : v.nodeID ∈ n.blocks := GoMap.mem_iff_lookup.mpr ⟨blk, hblk⟩
  have hon : (n.recordVote v).votesOn v.nodeID = (n.votesOn v.nodeID).insert v.voter v.sig := by
    rw [Replica.votesOn_recordVote, if_pos rfl]
  have hlen : 2 * K.f + 1 ≤ ((n.recordVote v).votesOn v.nodeID).len := by
    rwa [← (h.sets _ set hset).2.quorum]
  have hcert : K.world.Certified H v.nodeID := by
    refine certified_of_votes (fun voter sig hl => h₁.votes v.nodeID _ ?_ voter sig hl) hlen
    rw [hon]
    exact AList.lookup_insert _
  have hheight : blk.height = v.nodeID.height := by
    have := h.tree.heightOf hknown
    simpa [Replica.heightOf, hblk] using this
  have hgrow := GoMap.len_insert_le (n.votesOn v.nodeID) v.voter v.sig
  rw [← hon] at hgrow
  have hsafe := hs (hlen.trans hgrow) hcert
  have h₂ : ReplicaInv E K H X r { n.recordVote v with qcFormed := v.nodeID :: n.qcFormed } :=
    { h₁ with }
  have hq : Certifies K H ((n.recordVote v).certificate blk v.nodeID) := ⟨hheight, hcert⟩
  obtain ⟨h₃, g₃, _⟩ := h₂.onNewQCLocked hH (fun _ => hq) hknown
    (fun hlt hex => hsafe (by rw [← hheight]; exact hlt) hex)
  exact ⟨h₃, hgrows.trans ⟨⟨g₃.1.1, g₃.1.2, g₃.1.3, g₃.1.4, g₃.1.5, g₃.1.6, g₃.1.7⟩, g₃.2⟩⟩

/-! ## 6. `Propose` -/

theorem foldl_max_ge (l : List Block) : ∀ (m : ℕ),
    m ≤ l.foldl (fun maxH b => if b.height > maxH then b.height else maxH) m ∧
      ∀ b ∈ l, b.height ≤ l.foldl (fun maxH b => if b.height > maxH then b.height else maxH) m := by
  induction l with
  | nil => intro m; exact ⟨le_refl _, fun b hb => absurd hb (by simp)⟩
  | cons x l ih =>
    intro m
    rw [List.foldl_cons]
    obtain ⟨h₁, h₂⟩ := ih (if x.height > m then x.height else m)
    have hx : x.height ≤ (if x.height > m then x.height else m) ∧
        m ≤ (if x.height > m then x.height else m) := by
      split <;> omega
    refine ⟨hx.2.trans h₁, fun b hb => ?_⟩
    rcases List.mem_cons.mp hb with rfl | hb
    · exact hx.1.trans h₁
    · exact h₂ b hb

theorem ReplicaInv.height_le_highest (h : ReplicaInv E K H X r n) (hid : id ∈ n.blocks) :
    id.height ≤ n.highestBlockHeightLocked := by
  obtain ⟨b, hb⟩ := GoMap.mem_iff_lookup.mp hid
  rw [← h.tree.heightOf hid]
  simp only [Replica.heightOf, hb]
  exact (foldl_max_ge n.blocks.values 0).2 b (GoMap.mem_values_of_lookup hb)

/-- Short of the end of the `uint64` range a proposal is above every block of the tree. -/
theorem highest_lt_proposalHeight (h : n.highestBlockHeightLocked + 1 < 2 ^ 64) :
    n.highestBlockHeightLocked < n.proposalHeight := by
  unfold Replica.proposalHeight
  dsimp only
  generalize u64 (n.heightOf n.head + if n.freshBase = true then 2 else 1) = k
  split
  · rw [u64_of_lt h]
    omega
  next hgt => omega

/-- The leader's vote for its own block is sound when the lock is current and no height has
reached the end of the range. -/
theorem ReplicaInv.selfVote_sound (hr : K.Correct r) (h : ReplicaInv E K H X r n) (cmd : Bytes)
    (hhead : n.qcHigh.nodeID = n.head) (hwrap : n.highestBlockHeightLocked + 1 < 2 ^ 64)
    (hcur : LockCurrent n) :
    K.world.Sound H { voter := r, block := (n.nextBlock cmd).id, lock := n.bLock.height,
                      lockAfter := n.bLock.height } := by
  have hlt := highest_lt_proposalHeight hwrap
  have hheadle : n.head.height ≤ n.highestBlockHeightLocked :=
    h.height_le_highest (hhead ▸ h.highIn)
  exact
    { correct := (K.correct_iff.mp hr).2
      ascending := fun e' he' hv' => (h.height_le_highest (h.mine e' he' hv').1).trans_lt hlt
      parentCertified := by
        change K.world.Certified H n.head
        exact hhead ▸ h.high.2
      parentLower := hheadle.trans_lt hlt
      respectsLock := by
        change n.bLock.height ≤ n.head.height
        rw [← hhead, ← h.high.1]
        exact h.lockLe
      lockGrows := le_refl _
      lockKept := fun e' he' hv' => (h.mine e' he' hv').2
      lockFollows := ⟨n.qcHigh.nodeID, h.high.2, by
        change n.head.height ≤ n.qcHigh.nodeID.height
        rw [hhead], hcur⟩ }

theorem GapFree.cons {c : BlockID} (h : GapFree H c) (he : e.block = c) : GapFree (e :: H) c := by
  intro x hx hgap
  rcases List.mem_cons.mp hx with rfl | hx
  · rw [he] at hgap ⊢
    by_cases hp : c.parent.height < c.height
    · exact absurd hgap (by omega)
    · -- a string that is no digest is its own parent
      cases c with
      | raw t => exact Extends.refl _ _
      | digest v hh p cmd =>
        exact Extends.of_parent (Extends.of_parent (Extends.refl _ _))
  · exact h x hx hgap

theorem ReplicaInv.propose (hr : K.Correct r) (hH : K.world.History H)
    (h : ReplicaInv E K H X r n) (C : Ctx) {cmd : Bytes}
    (hplain : isMembershipCmd E cmd = false)
    (hmay : n.id = n.leader → n.active = true → n.qcHigh.nodeID = n.head →
      n.highestBlockHeightLocked + 1 < 2 ^ 64 ∧ LockCurrent n ∧
        (K.f = 0 → n.qcHigh.height < (n.nextBlock cmd).id.height →
          n.bExec.height < (n.nextBlock cmd).id.parent.parent.height →
          GapFree H (n.nextBlock cmd).id)) :
    Handled E K H X r (n.propose E C cmd).1 := by
  unfold Replica.propose
  split
  · exact h.handled hH
  next hlead =>
  split
  · exact h.handled hH
  next hbusy =>
  rw [not_or, not_not, not_not] at hlead
  have hhead : n.qcHigh.nodeID = n.head := by simpa using hbusy
  obtain ⟨hwrap, hcur, hs⟩ := hmay hlead.1 hlead.2 hhead
  have hsound := h.selfVote_sound hr cmd hhead hwrap hcur
  have hlt := highest_lt_proposalHeight hwrap
  have hheadIn : n.head ∈ n.blocks := hhead ▸ h.highIn
  have hf : Fit K H E (n.nextBlock cmd) :=
    { addressed := rfl
      justified := ⟨n.qcHigh, rfl, hhead, h.high⟩
      ascends := (h.height_le_highest hheadIn).trans_lt hlt
      plain := hplain }
  have hnew : (n.nextBlock cmd).id ∉ n.blocks := by
    intro hin
    have := h.height_le_highest hin
    rw [hf.id_height] at this
    exact absurd this (by change ¬ n.proposalHeight ≤ _; omega)
  obtain ⟨h₁, g₁⟩ := h.enter hf hheadIn
  refine (Handled.tolerates []).sendAll _ ?_
  refine Handled.quiet ?_ (Quiet.emit _ rfl)
  generalize n.nextBlock cmd = b at hsound hf hnew h₁ g₁ hs
  generalize hm₂ : ({ n with freshBase := false, blocks := n.blocks.insert b.id b,
                             head := b.id } : Replica) = m₂
  -- the block is in the tree and on record
  have h₂ : ReplicaInv E K H X r m₂ := hm₂ ▸ { h₁ with }
  have g₂ : Forward n m₂ := hm₂ ▸ ⟨g₁.1.1, g₁.1.2, g₁.1.3, g₁.1.4, g₁.1.5, g₁.1.6, g₁.1.7⟩
  have hin₂ : b.id ∈ m₂.blocks := hm₂ ▸ (AList.mem_insert _).mpr (Or.inl rfl)
  have hvotes₂ : m₂.votes = n.votes := by rw [← hm₂]
  have hlock₂ : m₂.bLock = n.bLock := by rw [← hm₂]
  have q₃ := Quiet.persistRecordLocked (.block b) m₂
  generalize m₂.persistRecordLocked (.block b) = m at q₃
  have h₃ := h₂.quiet q₃
  have g₃ := g₂.trans q₃.grows.toForward
  let e : VoteChain.Vote String BlockID :=
    { voter := r, block := b.id, lock := n.bLock.height, lockAfter := n.bLock.height }
  have h₄ : ReplicaInv E K (e :: H) X r m :=
    h₃.extend fun _ => ⟨by rw [q₃.blocks]; exact hin₂, by rw [q₃.bLock, hlock₂]⟩
  have hvoted : Voted (e :: H) r b.id := ⟨e, List.mem_cons_self, rfl, rfl⟩
  have h₅ := h₄.signVote hvoted
  have hH' : K.world.History (e :: H) := ⟨hsound, hH⟩
  rw [hf.id_height] at h₅
  rw [h₄.me]
  have hid : (m.emit (.signed (.vote b.height b.id r))).id = r := h₄.me
  rw [hid]
  -- a single vote is a quorum only in a cluster of one
  have hnone : n.votes.lookup b.id = none := by
    cases hl : n.votes.lookup b.id with
    | none => rfl
    | some mm => exact absurd (h.votesIn _ (GoMap.mem_iff_lookup.mpr ⟨mm, hl⟩)) hnew
  let v : Vote :=
    { height := b.height, nodeID := b.id, voter := r,
      sig := E.sign m.priv (.vote b.height b.id r) }
  obtain ⟨h₆, g₆⟩ := h₅.voteForBlockLocked (v := v) hH' (fun _ _ _ => hvoted) fun hlen => by
    have hzero : K.f = 0 := by
      change 2 * K.f + 1 ≤ GoMap.len ((m.votes.lookup b.id).getD ∅) + 1 at hlen
      rw [q₃.votes, hvotes₂, hnone] at hlen
      simp [GoMap.len] at hlen
      omega
    intro _ hq hx
    exact ((hs hzero) (g₃.qcHigh.trans_lt hq) (g₃.bExec.trans_lt hx)).cons rfl
  exact ⟨e :: H, hH', Or.inr ⟨e, rfl, rfl, b.height, r, g₆.signed List.mem_cons_self⟩, h₆⟩

end

end Cachey.HotStuff
