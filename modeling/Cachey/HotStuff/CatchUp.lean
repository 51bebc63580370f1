/-
# View changes and catching up

The handlers that sign no vote: a view change collects reports and may adopt a higher
certificate, a fetch or a sync brings in blocks the replica has missed.  All of them keep the
invariant with the history unchanged.
-/
import Mathlib.Data.List.TakeWhile
import Cachey.HotStuff.Handling

namespace Cachey.HotStuff

section

variable {E : Env} {C : Ctx} {K : Cluster} {H : History} {X : List BlockID} {r : String}
  {n : Replica} {vc : ViewChange} {b : Block}

/-! ## 1. View changes -/

theorem ReplicaInv.collect (h : ReplicaInv E K H X r n)
    (hb : ∀ qc, vc.highQC = some qc → Believable K H E qc) : ReplicaInv E K H X r { n with
      vcs := n.vcs.insert vc.view ((n.vcsOf vc.view).insert vc.sender vc) } := by
  refine { h with vcs := fun view m hm s vc' hvc' qc hqc => ?_ }
  rw [GoMap.lookup_insert_of] at hm
  split at hm
  next heq =>
    obtain rfl := Option.some.inj hm
    rw [GoMap.lookup_insert_of] at hvc'
    split at hvc'
    · obtain rfl := Option.some.inj hvc'
      exact hb qc hqc
    · unfold Replica.vcsOf at hvc'
      cases hl : n.vcs.lookup vc.view with
      | none => simp [hl] at hvc'
      | some m₀ =>
        rw [hl] at hvc'
        exact h.vcs _ m₀ hl s vc' hvc' qc hqc
  next => exact h.vcs view m hm s vc' hvc' qc hqc

theorem ReplicaInv.highestReported (h : ReplicaInv E K H X r n) : ∀ (vcs : List ViewChange)
    (high : QC), Certifies K H high →
    (∀ vc ∈ vcs, ∀ qc, vc.highQC = some qc → Believable K H E qc) →
    Certifies K H (vcs.foldl (fun high vc => match vc.highQC with
      | none => high
      | some qc => if n.qcValid E qc ∧ qc.height > high.height then qc else high) high)
  | [], _, hc, _ => hc
  | vc :: vcs, high, hc, hb => by
    rw [List.foldl_cons]
    refine ReplicaInv.highestReported h vcs _ ?_ (fun x hx => hb x (List.mem_cons_of_mem _ hx))
    split
    · exact hc
    next qc hqc =>
      split
      next hv => exact h.certifies (hb vc List.mem_cons_self qc hqc) hv.1
      · exact hc

theorem ReplicaInv.reported (h : ReplicaInv E K H X r n) (C : Ctx) (view : ℕ) :
    Certifies K H (n.highestReported E (C.scan.order (n.vcsOf view).values)) := by
  refine h.highestReported _ _ h.high fun vc hvc qc hqc => ?_
  rw [Iteration.mem_order] at hvc
  obtain ⟨s, hs⟩ := GoMap.mem_values_iff.mp hvc
  unfold Replica.vcsOf at hs
  cases hl : n.vcs.lookup view with
  | none => simp [hl] at hs
  | some m =>
    rw [hl] at hs
    exact h.vcs view m hl s vc hs qc hqc

theorem ReplicaInv.countVC (h : ReplicaInv E K H X r n) (C : Ctx)
    (hb : ∀ qc, vc.highQC = some qc → Believable K H E qc) :
    ReplicaInv E K H X r (((n.addVC vc).maybeActivateLocked E C vc.view).1.sendFetch
      ((n.addVC vc).maybeActivateLocked E C vc.view).2) := by
  have htol := ReplicaInv.tolerates (E := E) (K := K) (H := H) (X := X) (r := r)
    ((n.addVC vc).basing E C vc.view)
  refine htol.countVC vc h (h.collect hb) fun h₁ => ?_
  have hq := h₁.reported C vc.view
  refine htol.maybeActivateLocked h₁
    (fun _ _ _ _ => h₁.quiet (Quiet.enterViewLockedEpoch _ _ _)) (fun _ hid => hid)
    (fun m hm => { hm with want := fun qc hqc => (Option.some.inj hqc) ▸ hq })
    fun m hm qc hqc hin hlt => ?_
  have hhigh : Certifies K H qc := by
    unfold Replica.adopting at hqc
    dsimp only at hqc
    split at hqc
    · exact List.mem_singleton.mp hqc ▸ hq
    · cases hqc
  rw [← adoptQC_eq (E := E)]
  exact (hm.adoptQC hhigh hin hlt).1

theorem ReplicaInv.startViewChange (h : ReplicaInv E K H X r n) (C : Ctx) :
    ReplicaInv E K H X r (n.startViewChange E C) :=
  (ReplicaInv.tolerates []).startViewChange h
    (fun _ => h.quiet (Quiet.enterViewLockedEpoch _ _ _)) fun _ _ _ _ _ hhigh hm =>
      hm.countVC C fun _ hqc => Option.some.inj (hhigh.symm.trans hqc) ▸ hm.high.believable

/-! ## 2. Fetching and syncing -/

/-- No correct replica votes for a string that is no digest, so the empty parent is never
certified. -/
theorem not_certified_noID (hH : K.world.History H) : ¬ K.world.Certified H noID := by
  intro hc
  have hne : noID ≠ K.world.root := by simp [Cluster.world, noID, genesisID]
  have := (hc.parent K.faultBound hH hne).2
  exact absurd this (lt_irrefl _)

theorem ReplicaInv.fit_of_admitted (h : ReplicaInv E K H X r n) {now : ℕ}
    (hb : ∀ qc, b.justify = some qc → Believable K H E qc) (hplain : isMembershipBlock E b = false)
    (ha : n.blockAdmitted E now b = true) : Fit K H E b := by
  unfold Replica.blockAdmitted at ha
  simp only [Bool.and_eq_true, decide_eq_true_eq] at ha
  obtain ⟨⟨⟨⟨hid, _⟩, _⟩, _⟩, hj⟩ := ha
  split at hj
  · cases hj
  next qc hqc =>
    simp only [Bool.and_eq_true, decide_eq_true_eq] at hj
    have hq := h.certifies (hb qc hqc) hj.1.1
    exact ⟨hid, ⟨qc, hqc, hj.1.2, hq⟩, by rw [← hj.1.2, ← hq.1]; exact hj.2, hplain⟩

theorem ReplicaInv.handleBlock (hH : K.world.History H) (h : ReplicaInv E K H X r n) (C : Ctx)
    {bm : BlockMsg} (hb : ∀ qc, bm.block.justify = some qc → Believable K H E qc)
    (hplain : isMembershipBlock E bm.block = false)
    (hs : n.blockAdmitted E C.now bm.block = true → FoldSafe K H n bm.block.parent)
    (hP : n.blockAdmitted E C.now bm.block = true →
      Parked (fun _ => Releasable K H n [bm.block.id]) n) :
    ReplicaInv E K H X r (n.handleBlock E C bm).1 := by
  refine handleBlock_keeps h
    (fun hadm => { h with parked := Parked.push h.parked ⟨rfl, h.fit_of_admitted hb hplain hadm⟩ })
    fun htakes => ?_
  simp only [Replica.takesBlock, Bool.and_eq_true, Bool.or_eq_true, decide_eq_true_eq] at htakes
  obtain ⟨⟨-, hadm⟩, hpar⟩ := htakes
  have hf := h.fit_of_admitted hb hplain hadm
  have hin := hpar.resolve_left fun hno => not_certified_noID hH (hno ▸ hf.parent_certified)
  exact (h.addBlockLocked hH (Forward.refl n) (List.mem_singleton.mpr rfl) hf hin (hs hadm)
    (hP hadm)).1

/-! ## 3. Range sync

A batch is validated as a chain before any of it is inserted, and the certificate inside each
block fixes the epoch of the block before: with one set of validators, every block but the last
passes the epoch gate, so the block after it finds its parent in the tree. -/

theorem transitions_eq_nil : ∀ (c₁ c₂ c₃ : Option Block) (l : List Block),
    (∀ b ∈ l, isMembershipBlock E b = false) → transitions E c₁ c₂ c₃ l = []
  | _, _, _, [], _ => rfl
  | c₁, c₂, c₃, b :: l, h => by
    have ih := transitions_eq_nil (some b) c₁ c₂ l fun x hx => h x (List.mem_cons_of_mem _ hx)
    unfold transitions
    simp only [ih, h b List.mem_cons_self, Bool.false_and]
    split <;> simp

theorem ReplicaInv.epochAndSetOfLocked (h : ReplicaInv E K H X r n) (hf : Fit K H E b)
    (hp : b.parent ∈ n.blocks) : n.epochAndSetOfLocked E b = (0, n.sets.lookup 0) := by
  obtain ⟨g, hg⟩ := h.tree.root
  obtain ⟨hid, hk | hk⟩ := h.tree.node _ g hg
  · have hts : transitions E none none none
        ((n.path b).takeWhile fun cur => cur.id ≠ n.gcBase) = [] := by
      refine transitions_eq_nil _ _ _ _ fun x hx => ?_
      have hne := List.mem_takeWhile_imp hx
      rcases (h.tree.path_ids (Or.inr ⟨hf, hp⟩)).2 x
        (List.takeWhile_sublist _ |>.subset hx) with rfl | hl
      · exact hf.plain
      · rcases (h.tree.node _ x hl).2 with hx' | hx'
        · rw [h.base, hx'.id_eq] at hne
          cases hne
        · exact hx'.1.plain
    unfold Replica.epochAndSetOfLocked
    rw [hts, h.base, hg]
    simp only [hk.epoch_eq, hk.height_eq, List.length_nil, List.reverse_nil, List.foldl_nil,
      Nat.add_zero, u64, Nat.zero_mod, ite_self]
    rw [hk.epoch_eq]
  · exact absurd hid hk.1.ne_genesis

theorem ReplicaInv.epochGate (h : ReplicaInv E K H X r n) (hf : Fit K H E b)
    (hp : b.parent ∈ n.blocks) (he : b.epoch = 0) : n.epochGate E b = true := by
  obtain ⟨S, hS⟩ := h.set0
  simp [Replica.epochGate, h.epochAndSetOfLocked hf hp, he, hS]

theorem ReplicaInv.epoch_of_qcValid (h : ReplicaInv E K H X r n) {qc : QC}
    (hv : n.qcValid E qc = true) : qc.epoch = 0 := by
  unfold Replica.qcValid at hv
  split at hv
  next =>
    simp only [Bool.and_eq_true, decide_eq_true_eq] at hv
    exact hv.2
  next =>
    split at hv
    · cases hv
    next S hS => exact (h.sets _ S hS).1

/-- A chain of fit blocks, each the parent of the next, all but the last in epoch 0. -/
inductive FitChain (K : Cluster) (H : History) (E : Env) : List Block → Prop
  | nil : FitChain K H E []
  | last {b : Block} : Fit K H E b → FitChain K H E [b]
  | step {b c : Block} {l : List Block} : Fit K H E b → b.epoch = 0 → c.parent = b.id →
      FitChain K H E (c :: l) → FitChain K H E (b :: c :: l)

theorem ReplicaInv.fitChain (h : ReplicaInv E K H X r n) : ∀ (l : List Block)
    (prev : Option BlockID) (prevH epoch : ℕ),
    (∀ b ∈ l, isMembershipBlock E b = false ∧
      ∀ qc, b.justify = some qc → Believable K H E qc) →
    Replica.batchSound E n prev prevH epoch l = true → FitChain K H E l
  | [], _, _, _, _, _ => .nil
  | b :: l, prev, prevH, epoch, hb, hs => by
    obtain ⟨hplain, hbel⟩ := hb b List.mem_cons_self
    simp only [Replica.batchSound, Bool.and_eq_true, decide_eq_true_eq] at hs
    obtain ⟨⟨⟨hid, _⟩, hj⟩, hrest⟩ := hs
    have hfit : Fit K H E b := by
      split at hj
      · cases hj
      next qc hqc =>
        simp only [Bool.and_eq_true, decide_eq_true_eq] at hj
        obtain ⟨⟨⟨⟨hv, hn⟩, hh⟩, _⟩, hgt⟩ := hj
        have hq := h.certifies (hbel qc hqc) hv
        refine ⟨hid, ⟨qc, hqc, hn, hq⟩, ?_, hplain⟩
        rw [← hn, ← hq.1, hh]
        exact hgt
    have ih := ReplicaInv.fitChain h l _ _ _ (fun x hx => hb x (List.mem_cons_of_mem _ hx)) hrest
    cases l with
    | nil => exact .last hfit
    | cons c l =>
      simp only [Replica.batchSound, Bool.and_eq_true, decide_eq_true_eq] at hrest
      obtain ⟨⟨⟨_, hpar⟩, hjc⟩, _⟩ := hrest
      refine .step hfit ?_ hpar ih
      split at hjc
      · cases hjc
      next qc hqc =>
        simp only [Bool.and_eq_true, decide_eq_true_eq] at hjc
        rw [← hjc.1.2]
        exact h.epoch_of_qcValid hjc.1.1.1.1

theorem ReplicaInv.foldl_insertBatch (hH : K.world.History H) (n₀ : Replica)
    (roots : List BlockID) :
    ∀ (l : List Block) (n : Replica) (kids : List Proposal), ReplicaInv E K H X r n →
    Forward n₀ n → FitChain K H E l → (∀ b ∈ l.head?, b.parent ∈ n.blocks) →
    (∀ b ∈ l, b.id ∈ roots ∧ FoldSafe K H n₀ b.parent) →
    Parked (fun _ => Releasable K H n₀ roots) n →
    ReplicaInv E K H X r (l.foldl (Replica.insertBatchBlock E) (n, kids)).1
  | [], _, _, h, _, _, _, _, _ => h
  | b :: l, n, kids, h, g, hc, hp, hs, hP => by
    have hpar : b.parent ∈ n.blocks := hp b rfl
    have hf : Fit K H E b := by cases hc <;> assumption
    have hl : FitChain K H E l := by
      cases hc with
      | last => exact .nil
      | step _ _ _ hl => exact hl
    have hs' : ∀ x ∈ l, x.id ∈ roots ∧ FoldSafe K H n₀ x.parent :=
      fun x hx => hs x (List.mem_cons_of_mem _ hx)
    -- whatever comes next finds this block in the tree
    have next : ∀ m : Replica, (b.epoch = 0 → b.id ∈ m.blocks) →
        ∀ c ∈ l.head?, c.parent ∈ m.blocks := by
      intro m hm c hcl
      cases hc with
      | last => exact absurd hcl (by simp)
      | step _ he hcp _ =>
        obtain rfl := Option.some.inj hcl
        exact hcp ▸ hm he
    rw [List.foldl_cons]
    by_cases hin : b.id ∈ n.blocks
    · have hb : Replica.insertBatchBlock E (n, kids) b = (n, kids) := by simp [Replica.insertBatchBlock, hin]
      rw [hb]
      exact ReplicaInv.foldl_insertBatch hH n₀ roots l n kids h g hl (next n fun _ => hin) hs' hP
    · have hb : Replica.insertBatchBlock E (n, kids) b =
          ((n.addBlockLocked E b).1, kids ++ (n.addBlockLocked E b).2) := by
        simp [Replica.insertBatchBlock, hin]
      obtain ⟨h₁, g₁, p₁, f₁⟩ := h.addBlockLocked hH g (hs b List.mem_cons_self).1 hf hpar
        (hs b List.mem_cons_self).2 hP
      rw [hb]
      exact ReplicaInv.foldl_insertBatch hH n₀ roots l _ _ h₁ (g.trans g₁) hl
        (next _ fun he => (f₁ (h.epochGate hf hpar he) hin).1) hs' p₁

theorem ReplicaInv.handleBlockBatch (hH : K.world.History H) (h : ReplicaInv E K H X r n)
    (C : Ctx) {bb : BlockBatch}
    (hb : ∀ b ∈ bb.blocks, isMembershipBlock E b = false ∧
      ∀ qc, b.justify = some qc → Believable K H E qc)
    (hs : ∀ b ∈ bb.blocks, FoldSafe K H n b.parent)
    (hP : Parked (fun _ => Releasable K H n (bb.blocks.map (·.id))) n) :
    ReplicaInv E K H X r (n.handleBlockBatch E C bb).1 := by
  refine (ReplicaInv.tolerates [bb.target]).handleBlockBatch h (fun _ => List.mem_singleton.mpr rfl)
    fun htakes => ?_
  obtain ⟨lowest, rest, anchor, hbl, ha, hsound⟩ := of_takesBatch htakes
  refine ReplicaInv.foldl_insertBatch hH n (bb.blocks.map (·.id)) _ n [] h
    (Forward.refl n) (h.fitChain _ _ _ _ hb hsound) ?_
    (fun b hb' => ⟨List.mem_map_of_mem hb', hs b hb'⟩) hP
  rw [hbl]
  rintro b hbh
  obtain rfl := Option.some.inj hbh
  exact GoMap.mem_iff_lookup.mpr ⟨anchor, ha⟩

end

end Cachey.HotStuff
