/-
# HotStuff agreement

The correct replicas of a cluster execute blocks of one parent chain, each at most once, in every
run in which the steps keep clear of three weak spots of the code:

* a leader's vote for its own block does not raise `vHeight`, so the same replica may later
  follow a proposal at or below that height;
* a view change that adopts a higher certificate sets `qcHigh` BEFORE it calls `onNewQCLocked`,
  which then finds nothing new: the lock stays behind;
* the commit rule looks at parent links only, and heights may have gaps in which other
  blocks were voted for.

`Guarded` states what a step has to meet, in terms of the state before it.  Section 6 has a run
that forks without it.
-/
import Cachey.HotStuff.CatchUp
import Cachey.HotStuff.Schedule

namespace Cachey.HotStuff

open VoteChain (Voted Extends)
open Wal (WriteOutcome)

/-! ## 1. The condition on steps

One clause for each weak spot, and each is about the state before the step.  Which certificates a
step may fold is known then (`Replica.scope`), and so are the votes on record. -/

instance (n : Replica) : Decidable (LockCurrent n) := inferInstanceAs (Decidable (_ ≤ _))

namespace Replica

/-- The parents of the parked blocks that hang below `roots`: whose certificates are folded if
the blocks are released. -/
def released (n : Replica) (roots : List BlockID) : List BlockID :=
  (n.pendingBlocks.values.flatten.filter fun b => roots.any (· ∈ b.parent.ancestors)).map (·.parent)

end Replica

namespace ClusterState

/-- The votes on record, with those the Byzantine members may add, certify `id`. -/
def Certified (K : Cluster) (s : ClusterState) (id : BlockID) : Prop :=
  id = genesisID ∨
    2 * K.f + 1 ≤ (K.members.filter fun m => m ∈ K.byzantine ∨ id ∈ s.votes m).length

/-- Every vote on record whose height lies in a gap of the chain `g <- p <- c` is for a
descendant of `g`.  On consecutive heights there is no gap. -/
def GapsClean (K : Cluster) (s : ClusterState) (c : BlockID) : Prop :=
  ∀ m ∈ K.members, m ∉ K.byzantine → ∀ w ∈ s.votes m,
    (c.parent.parent.height < w.height ∧ w.height < c.parent.height) ∨
      (c.parent.height < w.height ∧ w.height < c.height) →
    c.parent.parent ∈ w.ancestors

/-- Folding a certificate of `c` commits nothing, or commits over clean gaps. -/
def CommitsCleanly (K : Cluster) (s : ClusterState) (n : Replica) (c : BlockID) : Prop :=
  n.qcHigh.height < c.height → n.bExec.height < c.parent.parent.height → s.GapsClean K c

/-- **The condition on a step**: the certificates it may fold commit cleanly, a vote is higher
than every vote the replica signed before, and the lock has kept up with `qcHigh` unless the
block voted for raises it. -/
def Guarded (E : Env) (K : Cluster) (s : ClusterState) (l : Label) : Prop :=
  let n := s.replica l.actor
  let foldable := fun c => s.Certified K c → s.CommitsCleanly K n c
  match l.input with
  | .propose cmd => n.id = n.leader → n.active = true → n.qcHigh.nodeID = n.head →
      n.highestBlockHeightLocked + 1 < 2 ^ 64 ∧ LockCurrent n ∧
        (K.f = 0 → s.CommitsCleanly K n (n.nextBlock cmd).id)
  | .deliver (.proposal p) => n.accepts E p = true →
      (∀ c ∈ p.block.parent :: n.released [p.block.id], foldable c) ∧
        (n.vHeight < p.block.height → (∀ w ∈ s.votes l.actor, w.height < p.block.height) ∧
          (p.block.parent.height ≤ n.qcHigh.height → LockCurrent n))
  | .deliver (.vote v) => n.id = n.leader →
      2 * K.f + 1 ≤ GoMap.len ((n.votes.lookup v.nodeID).getD ∅) + 1 → foldable v.nodeID
  | .deliver (.block bm) => n.blockAdmitted E l.ctx.now bm.block = true →
      ∀ c ∈ bm.block.parent :: n.released [bm.block.id], foldable c
  | .deliver (.blockBatch bb) =>
      ∀ c ∈ bb.blocks.map (·.parent) ++ n.released (bb.blocks.map (·.id)), foldable c
  | _ => True

instance (K : Cluster) (s : ClusterState) (id : BlockID) : Decidable (s.Certified K id) :=
  inferInstanceAs (Decidable (_ ∨ _))

instance (K : Cluster) (s : ClusterState) (c : BlockID) : Decidable (s.GapsClean K c) :=
  inferInstanceAs (Decidable (∀ _ ∈ _, _))

instance (K : Cluster) (s : ClusterState) (n : Replica) (c : BlockID) :
    Decidable (s.CommitsCleanly K n c) :=
  inferInstanceAs (Decidable (_ → _ → _))

instance (E : Env) (K : Cluster) (s : ClusterState) (l : Label) : Decidable (s.Guarded E K l) := by
  unfold Guarded
  dsimp only
  split <;> infer_instance

/-- The cluster, restricted to steps that meet the condition. -/
def guardedMachine (E : Env) (K : Cluster) : Machine ClusterState Label :=
  (machine E K).restrict fun s l => s.Guarded E K l

end ClusterState

/-! ## 2. Starting up -/

section Boot

variable {E : Env} {K : Cluster} {H : History} {X : List BlockID} {r : String} {n : Replica}

/-- Pinning a configured key changes the keys of the one validator set only. -/
theorem ReplicaInv.setPeerKey (h : ReplicaInv E K H X r n) (m : String) :
    ReplicaInv E K H X r (n.setPeerKey m (K.key E m)).1 := by
  unfold Replica.setPeerKey
  split
  · exact h
  dsimp only
  split
  · exact h
  split
  · exact { h with }
  next S hS =>
    split
    · have good := (h.sets 0 S hS).2
      refine { h with sets := fun e S' hS' => ?_, set0 := ⟨_, AList.lookup_insert _⟩ }
      rw [GoMap.lookup_insert_of] at hS'
      split at hS'
      next he =>
        obtain rfl := Option.some.inj hS'
        refine ⟨he, good.members, good.quorum, fun x pub hx => ?_⟩
        rw [GoMap.lookup_insert_of] at hx
        split at hx
        next hxm =>
          obtain rfl := Option.some.inj hx
          rw [hxm]
        next => exact good.keys x pub hx
      next => exact h.sets e S' hS'
    · exact { h with }

theorem ReplicaInv.foldl_setPeerKey : ∀ (l : List String) (n : Replica),
    ReplicaInv E K H X r n →
    ReplicaInv E K H X r (l.foldl (fun n m => (n.setPeerKey m (K.key E m)).1) n)
  | [], _, h => h
  | m :: l, _, h => ReplicaInv.foldl_setPeerKey l _ (h.setPeerKey m)

theorem Cluster.mem_all {x : String} (hr : r ∈ K.members) :
    x ∈ sortStrings ((K.config r).id :: (K.config r).peers) → x ∈ K.members := by
  intro hx
  rw [sortStrings, List.mem_insertionSort] at hx
  rcases List.mem_cons.mp hx with rfl | hx
  · exact hr
  · exact List.mem_of_mem_erase hx

theorem Cluster.length_all (hr : r ∈ K.members) :
    (sortStrings ((K.config r).id :: (K.config r).peers)).length = 3 * K.f + 1 := by
  rw [sortStrings, List.length_insertionSort, List.length_cons]
  change (K.members.erase r).length + 1 = _
  have := List.length_erase_of_mem hr
  have := K.size
  omega

theorem ReplicaInv.newReplica (hr : K.Correct r) (hn : newReplica E (K.config r) = .ok n) :
    ReplicaInv E K [] [] r n := by
  unfold Cachey.HotStuff.newReplica at hn
  split at hn
  · cases hn
  dsimp only at hn
  split at hn
  · cases hn
  generalize (if (K.config r).leader = "" then (K.config r).id else (K.config r).leader) = leader
    at hn
  split at hn
  · cases hn
  obtain rfl := Except.ok.inj hn
  have hempty : ∀ {V : Type} (k : BlockID) (v : V), (∅ : GoMap BlockID V).lookup k = some v → False :=
    fun k v h => absurd h (by simp [AList.lookup_empty])
  have hroot : K.world.Certified [] genesisID := Or.inl rfl
  have hin : genesisID ∈ (∅ : GoMap BlockID Block).insert genesisID
      (genesisBlock (sortStrings ((K.config r).id :: (K.config r).peers))).1 :=
    (AList.mem_insert _).mpr (Or.inl rfl)
  exact
    { me := rfl
      sets := fun e S hS => by
        rw [GoMap.lookup_insert_of] at hS
        split at hS
        next he =>
          obtain rfl := Option.some.inj hS
          refine ⟨he, fun m hm => ?_, ?_, fun m pub hm => ?_⟩
          · simp only [ValidatorSet.has, newValidatorSet, beq_iff_eq] at hm
            exact Cluster.mem_all hr.1 (List.mem_of_getElem? hm)
          · simp only [newValidatorSet, Cluster.length_all hr.1]
            omega
          · change ((∅ : GoMap String Bytes).insert r _).lookup m = some pub at hm
            rw [GoMap.lookup_insert_of] at hm
            split at hm
            next hmr =>
              obtain rfl := Option.some.inj hm
              rw [hmr]
              rfl
            next => exact absurd hm (by simp [AList.lookup_empty])
        next => exact absurd hS (by simp [AList.lookup_empty])
      set0 := ⟨_, AList.lookup_insert _⟩
      base := rfl
      tree :=
        { root := ⟨_, AList.lookup_insert _⟩
          node := fun id b hb => by
            rw [GoMap.lookup_insert_of] at hb
            split at hb
            next hid =>
              obtain rfl := Option.some.inj hb
              exact ⟨hid.symm, Or.inl ⟨rfl, rfl, rfl, rfl, rfl⟩⟩
            next => exact (hempty _ _ hb).elim }
      parked := fun id l hl => (hempty _ _ hl).elim
      high := ⟨rfl, hroot⟩
      highIn := hin
      lockIn := hin
      lockLe := le_refl _
      execIn := hin
      execCommitted := Or.inl rfl
      want := fun qc hqc => absurd hqc (by simp)
      vcs := fun view m hm => absurd hm (by simp [AList.lookup_empty])
      votes := fun id m hm => (hempty _ _ hm).elim
      votesIn := fun id hid => absurd hid (AList.notMem_empty _)
      mine := fun e he => absurd he (by simp)
      signed := fun h id v hm => absurd hm (by simp [votesOf])
      ledger := rfl }

theorem ReplicaInv.boot (hr : K.Correct r) (hb : K.boot E r = some n) :
    ReplicaInv E K [] [] r n := by
  unfold Cluster.boot at hb
  split at hb
  · cases hb
  next n₀ hn₀ =>
    obtain rfl := Option.some.inj hb
    exact { ReplicaInv.foldl_setPeerKey K.members n₀ (ReplicaInv.newReplica hr hn₀) with }

end Boot

/-! ## 3. What the trace says

The trace and the history agree: a vote signed by a correct replica is in the history, and
nothing else is. -/

/-- **The invariant of the cluster**, for the history `H` of all votes of correct replicas. -/
structure ClusterInv (E : Env) (K : Cluster) (H : History) (s : ClusterState) : Prop where
  history : K.world.History H
  replicas : ∀ r, K.Correct r →
    ReplicaInv E K H (s.executed r) r { s.replica r with out := [] }
  signed : ∀ r, K.Correct r → ∀ h id v, (r, Effect.signed (.vote h id v)) ∈ s.trace →
    v = r ∧ h = id.height ∧ Voted H r id
  recorded : ∀ e ∈ H, K.Correct e.voter ∧ e.block ∈ s.votes e.voter

section Trace

variable {E : Env} {K : Cluster} {H : History} {s : ClusterState} {id c : BlockID} {n : Replica}
  {S : ValidatorSet} {sig : Bytes} {qc : QC}

theorem ClusterState.mem_journal {r : String} {e : Effect} :
    e ∈ s.journal r ↔ (r, e) ∈ s.trace := by
  unfold ClusterState.journal
  rw [List.mem_filterMap]
  constructor
  · rintro ⟨⟨r', e'⟩, hm, he⟩
    split at he
    next hr =>
      obtain rfl := Option.some.inj he
      exact hr ▸ hm
    next => exact absurd he (by simp)
  · exact fun hm => ⟨_, hm, if_pos rfl⟩

/-- The actor's journal grows by what its handler did, and no other journal changes. -/
theorem ClusterState.journal_act (l : Label) (r : String) :
    (s.act E l).journal r = (if l.actor = r then ({ s.replica l.actor with
      out := [], writes := l.writes }.handle E l.ctx l.input).out else []) ++ s.journal r := by
  unfold ClusterState.journal ClusterState.act
  rw [List.filterMap_append, List.filterMap_map]
  congr 1
  split
  next h => simp [h]
  next h => simp [h]

theorem mem_votesOf {out : List Effect} {h : ℕ} {v : String} :
    (h, id, v) ∈ votesOf out ↔ Effect.signed (.vote h id v) ∈ out := by
  unfold votesOf
  rw [List.mem_filterMap]
  constructor
  · rintro ⟨e, he, hv⟩
    unfold Effect.vote at hv
    split at hv
    · cases hv
      exact he
    · cases hv
  · exact fun he => ⟨_, he, rfl⟩

theorem ClusterInv.certified (h : ClusterInv E K H s) (hc : K.world.Certified H id) :
    s.Certified K id := by
  rcases hc with hc | ⟨Q, hQ, hcard, hv⟩
  · exact Or.inl hc
  · refine Or.inr (hcard.trans ?_)
    rw [← List.toFinset_card_of_nodup (K.nodup.filter _)]
    refine Finset.card_le_card fun m hm => ?_
    have hmem : m ∈ K.members := List.mem_toFinset.mp (hQ hm)
    rw [List.mem_toFinset, List.mem_filter, decide_eq_true_eq]
    refine ⟨hmem, ?_⟩
    by_cases hf : m ∈ K.byzantine
    · exact Or.inl hf
    · obtain ⟨e, he, rfl, rfl⟩ := hv m hm (by simpa [Cluster.world] using hf)
      exact Or.inr (h.recorded e he).2

theorem ClusterInv.gapFree (h : ClusterInv E K H s) (hc : s.GapsClean K c) : GapFree H c := by
  intro e he hgap
  obtain ⟨hv, hb⟩ := h.recorded e he
  exact BlockID.mem_ancestors_iff.mp (hc e.voter hv.1 hv.2 e.block hb hgap)

theorem ClusterInv.foldSafe (h : ClusterInv E K H s)
    (hc : s.Certified K c → s.CommitsCleanly K n c) : FoldSafe K H n c :=
  fun hcert h₁ h₂ => h.gapFree (hc (h.certified hcert) h₁ h₂)

theorem ClusterInv.parked (h : ClusterInv E K H s) {roots : List BlockID}
    (hc : ∀ c ∈ n.released roots, s.Certified K c → s.CommitsCleanly K n c) :
    Parked (fun _ => Releasable K H n roots) n := by
  rintro id l hl b hb ⟨x, hx, hxb⟩
  refine h.foldSafe (hc b.parent ?_)
  refine List.mem_map_of_mem (List.mem_filter.mpr ⟨?_, ?_⟩)
  · exact List.mem_flatten.mpr ⟨l, GoMap.mem_values_of_lookup hl, hb⟩
  · exact List.any_eq_true.mpr ⟨x, hx, by simpa using hxb⟩

/-- A signature checked against a set of the cluster is one by the member's key. -/
theorem GoodSet.verified (hS : GoodSet K E S) {who : String} {m : Signable}
    (hver : verifyInSet E S who sig m = true) : E.verify (K.key E who) m sig = true := by
  unfold verifyInSet at hver
  split at hver
  · cases hver
  next pub hpub =>
    rw [hS.keys who pub hpub, Bool.and_eq_true] at hver
    exact hver.2

theorem signed_of_verified {trace : List (String × Effect)} (hS : GoodSet K E S)
    (hu : ∀ x ∈ qc.sigs, ∀ i ∈ K.members, i ∉ K.byzantine → E.verify (K.key E i) x.1 x.2 = true →
      (i, Effect.signed x.1) ∈ trace)
    {voter : String} (hl : qc.votes.lookup voter = some sig) (hhas : S.has voter = true)
    (hver : verifyInSet E S voter sig (.vote qc.height qc.nodeID voter) = true) :
    voter ∈ K.members ∧ (voter ∉ K.byzantine →
      (voter, Effect.signed (.vote qc.height qc.nodeID voter)) ∈ trace) := by
  have hmem := hS.members voter hhas
  have hx : (Signable.vote qc.height qc.nodeID voter, sig) ∈ qc.sigs :=
    List.mem_map_of_mem (f := fun e : Sigma fun _ : String => Bytes =>
      (Signable.vote qc.height qc.nodeID e.1, e.2)) (AList.mem_lookup_iff.mp hl)
  exact ⟨hmem, fun hc => hu _ hx voter hmem hc (hS.verified hver)⟩

theorem exists_correct_voter
    (hmem : ∀ voter sig, qc.votes.lookup voter = some sig → voter ∈ K.members)
    (hlen : 2 * K.f + 1 ≤ qc.votes.len) :
    ∃ voter sig, qc.votes.lookup voter = some sig ∧ voter ∉ K.byzantine := by
  obtain ⟨voter, hvot, hcor⟩ := K.faultBound.exists_correct (Q := qc.votes.keys.toFinset)
    (fun m hm => by
      obtain ⟨sig, hs⟩ := GoMap.mem_iff_lookup.mp (AList.mem_keys.mpr (List.mem_toFinset.mp hm))
      exact List.mem_toFinset.mpr (hmem m sig hs))
    (by
      rw [List.toFinset_card_of_nodup qc.votes.keys_nodup, ← GoMap.len_eq_keys]
      change K.f < _
      omega)
  obtain ⟨sig, hs⟩ := GoMap.mem_iff_lookup.mp (AList.mem_keys.mpr (List.mem_toFinset.mp hvot))
  exact ⟨voter, sig, hs, by simpa [Cluster.world] using hcor⟩

/-- A certificate in an unforged message certifies if its signatures verify. -/
theorem ClusterInv.believable (h : ClusterInv E K H s)
    (hu : ∀ x ∈ qc.sigs, ∀ i ∈ K.members, i ∉ K.byzantine → E.verify (K.key E i) x.1 x.2 = true →
      (i, Effect.signed x.1) ∈ s.trace) :
    Believable K H E qc := by
  intro S hS hlen hv
  have hsigned : ∀ voter sig, qc.votes.lookup voter = some sig → voter ∈ K.members ∧
      (voter ∉ K.byzantine → qc.height = qc.nodeID.height ∧ Voted H voter qc.nodeID) := by
    intro voter sig hl
    obtain ⟨hhas, hver⟩ := hv voter sig hl
    obtain ⟨hmem, hin⟩ := signed_of_verified hS hu hl hhas hver
    exact ⟨hmem, fun hc => (h.signed voter ⟨hmem, hc⟩ _ _ _ (hin hc)).2⟩
  have hcert : K.world.Certified H qc.nodeID :=
    certified_of_votes (fun voter sig hl => ⟨(hsigned voter sig hl).1,
      fun hc => ((hsigned voter sig hl).2 hc).2⟩) hlen
  -- one of the voters is correct, and it signed the block's own height
  obtain ⟨voter, sig, hs, hcor⟩ :=
    exists_correct_voter (fun voter sig hl => (hsigned voter sig hl).1) hlen
  exact ⟨((hsigned voter sig hs).2 hcor).1, hcert⟩

end Trace

/-! ## 4. One step

The history grows by the vote that is signed, if one is.  That the actor keeps its part is the
matter of `Handling` and `CatchUp`; here it is shown that a certificate that verifies consists of
votes of the history, since a correct member signs nothing else and a Byzantine one is counted in
anyway. -/

section Step

variable {E : Env} {K : Cluster} {H : History} {s : ClusterState} {qc : QC} {x : Signable × Bytes}
  {r : String} {l : Label}

theorem ClusterInv.believable_of_mem (h : ClusterInv E K H s) {m : Message} (hu : s.Unforged E K m)
    (hq : ∀ x ∈ qc.sigs, x ∈ m.sigs) : Believable K H E qc :=
  h.believable fun x hx => hu x (hq x hx)

theorem mem_block_sigs {b : Block} (hj : b.justify = some qc) (hx : x ∈ qc.sigs) : x ∈ b.sigs := by
  simpa [Block.sigs, hj] using hx

theorem mem_viewChange_sigs {vc : ViewChange} (hj : vc.highQC = some qc) (hx : x ∈ qc.sigs) :
    x ∈ vc.sigs := by
  simpa [ViewChange.sigs, hj] using Or.inr hx

theorem ClusterInv.start (h : ClusterInv E K H s) (hr : K.Correct r) (writes : List WriteOutcome) :
    ReplicaInv E K H (s.executed r) r { s.replica r with out := [], writes := writes } :=
  { h.replicas r hr with }

/-- **One critical section** of a correct replica, under the condition. -/
theorem ClusterInv.handled (h : ClusterInv E K H s) (en : s.Enabled E K l) (gd : s.Guarded E K l) :
    Handled E K H (s.executed l.actor) l.actor
      ({ s.replica l.actor with out := [], writes := l.writes }.handle E l.ctx l.input) := by
  obtain ⟨r, inp, C, ws⟩ := l
  obtain ⟨hr, -, hplain, hadm⟩ := en
  have hn := h.start hr ws
  have hH := h.history
  cases inp with
  | propose cmd =>
    refine hn.propose hr hH C (by simpa [Input.plain] using hplain) fun h₁ h₂ h₃ => ?_
    obtain ⟨hw, hl, hc⟩ := gd h₁ h₂ h₃
    exact ⟨hw, hl, fun hf h₄ h₅ => h.gapFree (hc hf h₄ h₅)⟩
  | startViewChange => exact (hn.startViewChange C).handled hH
  | requestBlock peer id =>
    exact (Handled.tolerates [id]).requestBlock peer (List.mem_singleton.mpr rfl) (hn.handled hH)
  | deliver m =>
    have hplain : ∀ b ∈ m.blocks, isMembershipBlock E b = false := by
      simpa [Input.plain] using hplain
    cases m with
    | proposal p =>
      have hbel : ∀ qc, p.block.justify = some qc → Believable K H E qc := fun qc hj =>
        h.believable_of_mem hadm fun x hx => by
          simp only [Message.sigs, List.mem_cons, List.mem_append]
          exact Or.inr (Or.inl (mem_block_sigs hj hx))
      refine hn.handleProposal hr hH C p hbel (hplain _ (List.mem_singleton.mpr rfl)) ?_ ?_ ?_
      · exact fun ha => h.foldSafe ((gd ha).1 _ List.mem_cons_self)
      · exact fun ha => h.parked fun c hc => (gd ha).1 c (List.mem_cons_of_mem _ hc)
      · intro ha hlt
        obtain ⟨hasc, hcur⟩ := (gd ha).2 hlt
        refine ⟨fun e he hv => hasc e.block ?_, hcur⟩
        exact hv ▸ (h.recorded e he).2
    | vote v =>
      have hgen : VoteGenuine E K H v := fun hm hc hv =>
        (h.signed v.voter ⟨hm, hc⟩ _ _ _
          (hadm _ (List.mem_singleton.mpr rfl) v.voter hm hc hv)).2.2
      change Handled E K H _ r (Replica.handleVote E v _)
      unfold Replica.handleVote
      split
      next hl =>
        exact (hn.voteForBlockLocked hH hgen fun hq => h.foldSafe (gd hl hq)).1.handled hH
      next => exact hn.handled hH
    | viewChange vc =>
      refine (Handled.tolerates []).handleViewChange (hn.handled hH) fun _ =>
        (hn.countVC C fun qc hj => ?_).handled hH
      exact h.believable_of_mem hadm fun x hx => mem_viewChange_sigs hj hx
    | fetch f => exact (Handled.tolerates []).handleFetch f (hn.handled hH)
    | getBlocks g => exact (Handled.tolerates []).handleGetBlocks g (hn.handled hH)
    | block bm =>
      have hbel : ∀ qc, bm.block.justify = some qc → Believable K H E qc := fun qc hj =>
        h.believable_of_mem hadm fun x hx => List.mem_cons_of_mem _ (mem_block_sigs hj hx)
      refine (hn.handleBlock hH C hbel (hplain _ (List.mem_singleton.mpr rfl)) ?_ ?_).handled hH
      · exact fun ha => h.foldSafe (gd ha _ List.mem_cons_self)
      · exact fun ha => h.parked fun c hc => gd ha c (List.mem_cons_of_mem _ hc)
    | blockBatch bb =>
      refine (hn.handleBlockBatch hH C (fun b hb => ⟨hplain b hb, fun qc hj => ?_⟩) ?_ ?_).handled hH
      · refine h.believable_of_mem hadm fun x hx => List.mem_cons_of_mem _ ?_
        exact List.mem_flatMap.mpr ⟨b, hb, mem_block_sigs hj hx⟩
      · exact fun b hb => h.foldSafe
          (gd _ (List.mem_append_left _ (List.mem_map_of_mem hb)))
      · exact h.parked fun c hc => gd c (List.mem_append_right _ hc)

theorem ReplicaInv.other {X : List BlockID} {r' : String} {n : Replica} {H' : History}
    (h : ReplicaInv E K H X r n) (hne : r' ≠ r) (hH' : H' = H ∨ ∃ e, e.voter = r' ∧ H' = e :: H) :
    ReplicaInv E K H' X r n := by
  rcases hH' with rfl | ⟨e, he, rfl⟩
  · exact h
  · exact h.extend fun hv => absurd (he.symm.trans hv) hne

/-- **A guarded step keeps the invariant**, with a history at most one vote longer. -/
theorem ClusterInv.step (h : ClusterInv E K H s) (en : s.Enabled E K l) (gd : s.Guarded E K l) :
    ∃ H', ClusterInv E K H' (s.act E l) := by
  obtain ⟨H', hH', hext, hinv⟩ := h.handled en gd
  have hsub : ∀ e ∈ H, e ∈ H' := by
    rcases hext with rfl | ⟨e, -, rfl, -⟩
    · exact fun _ he => he
    · exact fun _ he => List.mem_cons_of_mem _ he
  have hext' : H' = H ∨ ∃ e, e.voter = l.actor ∧ H' = e :: H :=
    hext.imp_right fun ⟨e, h₁, h₂, _⟩ => ⟨e, h₁, h₂⟩
  refine ⟨H', hH', fun r hr => ?_, fun r hr hh id v hm => ?_, fun e he => ?_⟩
  · by_cases hra : l.actor = r
    · subst hra
      have hrep : (s.act E l).replica l.actor =
          ({ s.replica l.actor with out := [], writes := l.writes }.handle E l.ctx l.input) := by
        simp [ClusterState.act]
      rw [hrep]
      refine { hinv with signed := fun h id v hm => absurd hm (by simp [votesOf]), ledger := ?_ }
      have := hinv.ledger
      simp only [ClusterState.executed, ClusterState.journal_act, if_true, execsOf,
        List.filterMap_append, List.filterMap_nil, List.nil_append] at this ⊢
      exact this
    · have hrep : (s.act E l).replica r = s.replica r := by
        simp [ClusterState.act, Ne.symm hra]
      have hex : (s.act E l).executed r = s.executed r := by
        rw [ClusterState.executed, ClusterState.journal_act, if_neg hra, List.nil_append]
        rfl
      rw [hrep, hex]
      exact (h.replicas r hr).other hra hext'
  · rw [← ClusterState.mem_journal, ClusterState.journal_act] at hm
    rcases List.mem_append.mp hm with hnew | hold
    · by_cases hra : l.actor = r
      · subst hra
        rw [if_pos rfl] at hnew
        exact hinv.signed hh id v (mem_votesOf.mpr hnew)
      · rw [if_neg hra] at hnew
        cases hnew
    · obtain ⟨h₁, h₂, h₃⟩ := h.signed r hr hh id v (ClusterState.mem_journal.mp hold)
      exact ⟨h₁, h₂, h₃.mono hsub⟩
  · have hold : ∀ x ∈ H, K.Correct x.voter ∧ x.block ∈ (s.act E l).votes x.voter := by
      intro x hx
      obtain ⟨h₁, h₂⟩ := h.recorded x hx
      refine ⟨h₁, ?_⟩
      rw [ClusterState.votes, ClusterState.journal_act, votesOf, List.filterMap_append,
        List.map_append]
      exact List.mem_append_right _ h₂
    rcases hext with rfl | ⟨x, hx, rfl, hh, v, hout⟩
    · exact hold e he
    · rcases List.mem_cons.mp he with rfl | he
      · refine ⟨hx ▸ en.1, ?_⟩
        rw [ClusterState.votes, ClusterState.journal_act, if_pos hx.symm, votesOf,
          List.filterMap_append, List.map_append]
        exact List.mem_append_left _ (List.mem_map.mpr ⟨_, hout, rfl⟩)
      · exact hold e he

end Step

/-! ## 5. Every run -/

section Run

variable {E : Env} {K : Cluster} {s₀ s : ClusterState} {H : History}

theorem ClusterInv.init (h : ClusterState.Init E K s₀) : ClusterInv E K [] s₀ where
  history := trivial
  replicas := fun r hr => by
    have hx : s₀.executed r = [] := by
      simp [ClusterState.executed, ClusterState.journal, execsOf, h.1]
    rw [hx]
    have hb := ReplicaInv.boot hr (h.2 r hr)
    exact { hb with signed := fun h id v hm => absurd hm (by simp [votesOf])
                    ledger := by
                      have hout : (s₀.replica r).bExec.line = [] := by
                        rcases hb.execCommitted with hg | ⟨p, c, hc⟩
                        · rw [hg]; rfl
                        · obtain ⟨past, hp, hcert, -⟩ := hc.moment
                          rw [List.suffix_nil.mp hp] at hcert
                          obtain ⟨e, he, -⟩ := hcert.exists_vote K.faultBound hc.notRoot₁
                          cases he
                      exact hout.symm }
  signed := fun r _ hh id v hm => by rw [h.1] at hm; exact absurd hm (by simp)
  recorded := fun e he => absurd he (by simp)

/-- **Every state of a guarded run** has the invariant for some history. -/
theorem ClusterInv.run (h : ClusterState.Init E K s₀)
    (hrun : (ClusterState.guardedMachine E K).Steps s₀ s) : ∃ H, ClusterInv E K H s := by
  refine hrun.invariant (P := fun s => ∃ H, ClusterInv E K H s) ?_ ⟨[], ClusterInv.init h⟩
  rintro s l ⟨H, hinv⟩ hl
  exact hinv.step hl.1 hl.2

theorem BlockID.depth_le_of_mem_line {x : BlockID} : ∀ {b : BlockID}, x ∈ b.line →
    x.depth ≤ b.depth
  | raw _, h => absurd h (by simp [BlockID.line])
  | digest v h p cmd, hm => by
    rcases List.mem_cons.mp hm with rfl | hm
    · exact le_refl _
    · have := BlockID.depth_le_of_mem_line hm
      simp only [BlockID.depth]
      omega

theorem BlockID.nodup_line : ∀ (b : BlockID), b.line.Nodup
  | raw _ => List.nodup_nil
  | digest v h p cmd => by
    refine List.nodup_cons.mpr ⟨fun hm => ?_, p.nodup_line⟩
    have := BlockID.depth_le_of_mem_line hm
    simp only [BlockID.depth] at this
    omega

theorem ClusterInv.executed_eq (h : ClusterInv E K H s) {r : String} (hr : K.Correct r) :
    s.executed r = (s.replica r).bExec.line :=
  (h.replicas r hr).ledger

theorem ClusterInv.comparable (h : ClusterInv E K H s) {r₁ r₂ : String} (h₁ : K.Correct r₁)
    (h₂ : K.Correct r₂) :
    Extends BlockID.parent (s.replica r₁).bExec (s.replica r₂).bExec ∨
      Extends BlockID.parent (s.replica r₂).bExec (s.replica r₁).bExec := by
  have c₁ := (h.replicas r₁ h₁).execCommitted
  have c₂ := (h.replicas r₂ h₂).execCommitted
  have cert₁ := c₁.certified K.faultBound h.history
  have cert₂ := c₂.certified K.faultBound h.history
  rcases Nat.le_total (s.replica r₂).bExec.height (s.replica r₁).bExec.height with hle | hle
  · exact Or.inl (c₂.extends_of_certified K.faultBound h.history cert₁ hle)
  · exact Or.inr (c₁.extends_of_certified K.faultBound h.history cert₂ hle)

/-- **Agreement.**  In every run whose steps all meet the condition, the blocks executed by
correct replicas, at any times, lie on one parent chain, and no correct replica executes a block
twice. -/
theorem agreement (h : ClusterState.Init E K s₀)
    (hrun : (ClusterState.guardedMachine E K).Steps s₀ s) :
    (∀ r₁ r₂, K.Correct r₁ → K.Correct r₂ → ∀ x ∈ s.executed r₁, ∀ y ∈ s.executed r₂,
      x ∈ y.ancestors ∨ y ∈ x.ancestors) ∧
      ∀ r, K.Correct r → (s.executed r).Nodup := by
  obtain ⟨H, hinv⟩ := ClusterInv.run h hrun
  refine ⟨fun r₁ r₂ h₁ h₂ x hx y hy => ?_, fun r hr => ?_⟩
  · rw [hinv.executed_eq h₁] at hx
    rw [hinv.executed_eq h₂] at hy
    have hx := BlockID.mem_ancestors_iff.mp (BlockID.mem_ancestors_of_mem_line hx)
    have hy := BlockID.mem_ancestors_iff.mp (BlockID.mem_ancestors_of_mem_line hy)
    rw [BlockID.mem_ancestors_iff, BlockID.mem_ancestors_iff]
    -- both are ancestors of the longer of the two executed prefixes
    rcases hinv.comparable h₁ h₂ with hc | hc
    · exact (hx.comparable (hc.trans hy)).symm
    · exact ((hc.trans hx).comparable hy).symm
  · rw [hinv.executed_eq hr]
    exact BlockID.nodup_line _

instance (s : ClusterState) (l : Label) : Decidable ((ClusterState.machine E K).enabled s l) :=
  inferInstanceAs (Decidable (s.Enabled E K l))

instance (s : ClusterState) (l : Label) :
    Decidable ((ClusterState.guardedMachine E K).enabled s l) :=
  inferInstanceAs (Decidable (s.Enabled E K l ∧ s.Guarded E K l))

end Run

/-- The normal case: the leader proposes, two replicas vote, three times in a row. -/
def normalCase : List (ClusterState → Label) :=
  let round := [Move.propose "L0" [7], Move.relay "L0" "L1", Move.relay "L0" "L2",
    Move.relay "L1" "L0", Move.relay "L2" "L0"]
  round ++ round ++ round

set_option maxRecDepth 20000 in
/-- The three rounds are a guarded run in which the leader executes the first block. -/
theorem agreement_normalCase :
    (((ClusterState.guardedMachine plainEnv (four false)).play ((four false).start plainEnv)
        normalCase).executed "L0" = [.digest 0 1 genesisID [7]]) ∧
      (∀ r₁ r₂, (four false).Correct r₁ → (four false).Correct r₂ →
        ∀ x ∈ ((ClusterState.guardedMachine plainEnv (four false)).play
          ((four false).start plainEnv) normalCase).executed r₁,
        ∀ y ∈ ((ClusterState.guardedMachine plainEnv (four false)).play
          ((four false).start plainEnv) normalCase).executed r₂,
        x ∈ y.ancestors ∨ y ∈ x.ancestors) ∧
      ∀ r, (four false).Correct r → (((ClusterState.guardedMachine plainEnv (four false)).play
        ((four false).start plainEnv) normalCase).executed r).Nodup :=
  ⟨by decide +kernel, agreement ((four false).init_start plainEnv)
    (Machine.steps_of_plays _ _ (by decide +kernel))⟩

/-! ## 6. A run that forks

Four replicas, `L3` Byzantine.  `b1` (view 0) and `w2` (view 1) are siblings above genesis, both
certified: `L2` votes for both, as it may.  In view 2 `L2` leads, extends `b1` by `b3` and `b4`
and commits `b1` by a three-chain that leaps over the height of `w2`.  In view 3 `L3` shows the
others the certificate of `w2`, which is no lower than what their locks demand, and has them
extend `w2` by `w5`, `w6`, `w7` until `L0` commits `w2`. -/

namespace Fork

def b1 : BlockID := .digest 0 1 genesisID [98]
def w2 : BlockID := .digest 1 2 genesisID [119]
def b3 : BlockID := .digest 2 3 b1 []
def b4 : BlockID := .digest 2 4 b3 []
def w5 : BlockID := .digest 3 5 w2 []
def w6 : BlockID := .digest 3 6 w5 []
def w7 : BlockID := .digest 3 7 w6 []

/-- `L3` votes. -/
def vote (id : BlockID) (dst : String) : ClusterState → Label :=
  Move.inject dst fun _ => .vote { height := id.height, nodeID := id, voter := "L3", sig := [4] }

/-- The view change of `L3`, which reports genesis. -/
def viewChange (view : ℕ) : ViewChange :=
  { view := view, epoch := 0, highQC := some Script.root, sender := "L3", sig := [4] }

/-- The view change `src` sent to `L3`. -/
def reported (s : ClusterState) (src : String) : List ViewChange :=
  match s.lastSent src "L3" with
  | some (.viewChange vc) => [vc]
  | _ => []

/-- `L3` proposes as the leader of view 3. -/
def proposal (id : BlockID) (qc : QC) (dst : String) : ClusterState → Label :=
  Move.inject dst fun s => .proposal
    { block := Script.blockOf id qc 0, sender := "L3",
      viewChanges := reported s "L0" ++ reported s "L1" ++ [viewChange 3], sig := [4] }

def qcW2 : QC := Script.certify 0 w2 ["L1", "L2", "L3"]
def qcW5 : QC := Script.certify 0 w5 ["L0", "L1", "L3"]
def qcW6 : QC := Script.certify 0 w6 ["L0", "L1", "L3"]

def schedule : List (ClusterState → Label) :=
  [ -- view 0: `L0` certifies `b1` with `L2` and `L3`
    Move.propose "L0" [98], Move.relay "L0" "L2", Move.relay "L2" "L0", vote b1 "L0",
    -- view 1: `L1` has not seen that and certifies `w2` with `L2` and `L3`
    Move.suspect "L1", Move.suspect "L2", Move.relay "L2" "L1",
    Move.inject "L1" fun _ => .viewChange (viewChange 1),
    Move.propose "L1" [119], Move.relay "L1" "L2", Move.relay "L2" "L1", vote w2 "L1",
    -- view 2: `L2` learns `b1`'s certificate from `L0` and builds on it
    Move.suspect "L0", Move.suspect "L0", Move.suspect "L2", Move.relay "L0" "L2",
    Move.inject "L2" fun _ => .viewChange (viewChange 2),
    Move.propose "L2" [], Move.relay "L2" "L0", Move.relay "L0" "L2", vote b3 "L2",
    Move.propose "L2" [], Move.relay "L2" "L0", Move.relay "L0" "L2", vote b4 "L2",
    -- view 3: `L3` builds on `w2`, which `L0` has to fetch first
    Move.suspect "L0", Move.suspect "L1", Move.suspect "L1",
    proposal w5 qcW2 "L0",
    Move.inject "L0" fun _ =>
      .block { block := Script.blockOf w2 Script.root 0, sender := "L3", sig := [4] },
    proposal w5 qcW2 "L0", proposal w5 qcW2 "L1", proposal w6 qcW5 "L0", proposal w6 qcW5 "L1",
    proposal w7 qcW6 "L0" ]

def last : ClusterState :=
  (ClusterState.machine plainEnv (four true)).play ((four true).start plainEnv) schedule

end Fork

set_option maxRecDepth 20000 in
/-- **Two correct replicas execute siblings**, neither of which is an ancestor of the other, in a
cluster of four with one Byzantine member. -/
theorem agreement_fails :
    ClusterState.Reachable plainEnv (four true) Fork.last ∧
      (four true).Correct "L0" ∧ (four true).Correct "L2" ∧
      Fork.w2 ∈ Fork.last.executed "L0" ∧ Fork.b1 ∈ Fork.last.executed "L2" ∧
      ¬ (Fork.w2 ∈ Fork.b1.ancestors ∨ Fork.b1 ∈ Fork.w2.ancestors) :=
  ⟨⟨_, (four true).init_start plainEnv, Machine.steps_of_plays _ _ (by decide +kernel)⟩,
    by decide, by decide, by decide +kernel, by decide +kernel, by decide⟩

end Cachey.HotStuff
