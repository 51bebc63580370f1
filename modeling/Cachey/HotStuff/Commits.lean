/-
# What a call may commit

A certificate is folded somewhere inside a call: after the proposed block went in, after each block
of a batch, after a parked block was released.  Folding it may commit the grandparent of the
certified block, and with it every block on the way down to the executed prefix, and each
membership block among them writes a validator set.

This file says which membership blocks these can be, in terms of the state a call STARTS in and of
its input: the blocks whose certificates the call may fold are known beforehand (`Replica.scope`),
and an id holds its whole parent chain.

* §1  The goals of a call, and the transitions that are due.
* §2  `Planted.committing`: what every due transition keeps of the configuration, the call keeps.
-/
import Cachey.HotStuff.Lineage

namespace Cachey.HotStuff

/-! ## 1. What is due -/

/-- The known sets and the current epoch. -/
def Replica.config (n : Replica) : GoMap Nat ValidatorSet × Nat := (n.sets, n.epoch)

namespace Replica

variable (E : Env) (C : Ctx) (inp : Input) (n : Replica)

/-- The blocks up to which a call may commit: the grandparents of the blocks whose certificates it
may fold, as far as the certificate is above `qcHigh` and the grandparent above `bExec`. -/
def goals : List BlockID :=
  ((n.scope E C inp).folds.filter fun c =>
    n.qcHigh.height < c.height ∧ n.heightOf n.bExec < c.parent.parent.height).map (·.parent.parent)

/-- The goals continue the executed prefix, one above the other. -/
def Straight : Prop :=
  ∀ g ∈ n.goals E C inp, n.bExec ∈ g.ancestors ∧
    ∀ g' ∈ n.goals E C inp, g.height < g'.height → g ∈ g'.ancestors

instance : Decidable (n.Straight E C inp) := inferInstanceAs (Decidable (∀ _ ∈ _, _))

/-- The blocks that can be in the tree before the call is over. -/
def pool : List Block := n.blocks.values ++ n.incoming E C inp ++ n.building inp

/-- **The transitions that are due**: the membership blocks a call may commit.  They are below a
goal, and not executed yet -- unless a goal is on another branch than the executed prefix:
`commitUpToLocked` stops at `bExec` only if it meets it, and otherwise executes the branch from the
bottom. -/
def due : List Block :=
  (n.pool E C inp).filter fun x => isMembershipBlock E x ∧
    ∃ g ∈ n.goals E C inp, x.id ∈ g.ancestors ∧ (n.Straight E C inp → x.id ∉ n.bExec.ancestors)

end Replica

/-! ## 2. What a call commits is due

The induction is over the moves of the call.  `Underway` keeps the state it started in: the executed
prefix is still the old one, or it has reached a goal, and goals lie one above the other. -/

section Commits

variable {E : Env} {C : Ctx} {inp : Input} {n m m' : Replica} {b : Block} {S : Scope}

theorem Moves.blocks_from (h : Moves E S n m) {id : BlockID} (hb : m.blocks.lookup id = some b) :
    n.blocks.lookup id = some b ∨ (b ∈ S.inserts ∧ b.id ∉ n.blocks) ∨ b ∈ S.owns := by
  have hfrom := h.invariant (P := fun m => (∀ x ∈ n.blocks, x ∈ m.blocks) ∧
    ∀ id b, m.blocks.lookup id = some b →
      n.blocks.lookup id = some b ∨ (b ∈ S.inserts ∧ b.id ∉ n.blocks) ∨ b ∈ S.owns) ?_
    ⟨fun _ h => h, fun _ _ h => Or.inl h⟩
  · exact hfrom.2 id b hb
  · rintro m m' ⟨hkeep, hfrom⟩ hm
    have hput : ∀ b, (b ∈ S.inserts ∧ b.id ∉ n.blocks) ∨ b ∈ S.owns →
        (∀ x ∈ n.blocks, x ∈ m.blocks.insert b.id b) ∧
        ∀ id x, (m.blocks.insert b.id b).lookup id = some x →
          n.blocks.lookup id = some x ∨ (x ∈ S.inserts ∧ x.id ∉ n.blocks) ∨ x ∈ S.owns := by
      intro b hb
      refine ⟨fun x hx => (AList.mem_insert _).mpr (Or.inr (hkeep x hx)), fun id x hx => ?_⟩
      rw [GoMap.lookup_insert_of] at hx
      split at hx
      · obtain rfl := Option.some.inj hx
        exact Or.inr hb
      · exact hfrom id x hx
    cases hm with
    | aside ha => rw [ha.blocks]; exact ⟨hkeep, hfrom⟩
    | insert b hmem _ hnew _ _ =>
      obtain ⟨w, o, heq⟩ := record_eq b m
      rw [heq]
      exact hput b (Or.inl ⟨hmem, fun h => hnew (hkeep _ h)⟩)
    | own cmd hmem _ _ =>
      obtain ⟨w, o, heq⟩ := record_eq (m.nextBlock cmd) m
      rw [heq]
      exact hput _ (Or.inr hmem)
    | fold qc _ _ =>
      rw [(Folding.onNewQCLocked (E := E) qc m).blocks]
      exact ⟨hkeep, hfrom⟩
    | adopt qc _ _ _ => exact ⟨hkeep, hfrom⟩
    | vote b _ _ _ =>
      rcases castVote_eq (E := E) b m with heq | ⟨_, w, o, heq⟩
      · rw [heq]; exact ⟨hkeep, hfrom⟩
      · rw [heq]; exact ⟨hkeep, hfrom⟩
    | collect vc _ => exact ⟨hkeep, hfrom⟩

theorem Moves.mem_pool (h : Moves E (n.scope E C inp) n m) {id : BlockID}
    (hb : m.blocks.lookup id = some b) : b ∈ n.pool E C inp := by
  rcases h.blocks_from hb with hold | ⟨hin, -⟩ | hown
  · exact List.mem_append_left _ (List.mem_append_left _ (GoMap.mem_values_of_lookup hold))
  · exact List.mem_append_left _ (List.mem_append_right _ hin)
  · exact List.mem_append_right _ hown

theorem walk_down_to {blocks : GoMap BlockID Block} (ht : Grown blocks) {base : BlockID} :
    ∀ (fuel : ℕ) (b : Block), b.Good → base ∈ b.id.ancestors →
      ∀ x ∈ (walk blocks fuel b).takeWhile (fun x => x.id ≠ base), x.id ∉ base.ancestors
  | fuel, b, hb, hup, x, hx => by
    have htop : ∀ {y : Block}, base ∈ y.id.ancestors → y.id ≠ base → y.id ∉ base.ancestors :=
      fun hy hne hback => absurd (BlockID.depth_lt_of_mem_ancestors hy hne)
        (Nat.not_lt.mpr (BlockID.depth_le_of_mem_ancestors hback))
    by_cases hbase : b.id = base
    · -- the walk stops at once
      cases fuel <;> simp [walk, hbase] at hx
    cases fuel with
    | zero =>
      simp only [walk, List.takeWhile_cons, hbase, ne_eq, not_false_eq_true, decide_true,
        List.takeWhile_nil, if_true, List.mem_singleton] at hx
      exact hx ▸ htop hup hbase
    | succ fuel =>
      rw [walk, List.takeWhile_cons_of_pos (by simpa using hbase)] at hx
      rcases List.mem_cons.mp hx with rfl | hx
      · exact htop hup hbase
      split at hx
      · cases hx
      next hno =>
        split at hx
        · cases hx
        next p hp =>
          have hs : b.Sound := hb.resolve_left fun hg => hno hg.parent_eq
          obtain ⟨hpid, hpg⟩ := ht _ p hp
          have hup' := (BlockID.ancestors_parent hup hbase).1
          rw [hs.id_parent, ← hpid] at hup'
          exact walk_down_to ht fuel p hpg hup' x hx

/-- A call on its way. -/
structure Underway (E : Env) (C : Ctx) (inp : Input) (n m : Replica) : Prop where
  moves : Moves E (n.scope E C inp) n m
  tree : Grown m.blocks
  /-- nothing is committed yet, or everything up to a goal -/
  exec : m.bExec = n.bExec ∨ m.bExec ∈ n.goals E C inp ∧ m.bExec ∈ m.blocks
  level : n.heightOf n.bExec ≤ m.heightOf m.bExec

namespace Underway

theorem heightOf_mono (ht : Grown m.blocks) (ht' : Grown m'.blocks)
    (hsub : ∀ id ∈ m.blocks, id ∈ m'.blocks) (id : BlockID) : m.heightOf id ≤ m'.heightOf id := by
  by_cases hid : id ∈ m.blocks
  · rw [ht.heightOf hid, ht'.heightOf (hsub id hid)]
  · have hnone : m.blocks.lookup id = none := AList.lookup_eq_none.mpr hid
    simp [Replica.heightOf, hnone]

theorem calm (h : Underway E C inp n m) (hm : Move E (n.scope E C inp) m m')
    (htree : Grown m'.blocks) (hexec : m'.bExec = m.bExec) : Underway E C inp n m' := by
  have hsub := hm.onward.blocks
  refine ⟨h.moves.trans hm.moves, htree, ?_, h.level.trans ?_⟩
  · rw [hexec]
    exact h.exec.imp_right fun hg => ⟨hg.1, hsub _ hg.2⟩
  · rw [hexec]
    exact heightOf_mono h.tree htree hsub _

theorem fold (h : Underway E C inp n m) {qc : QC} (hmem : qc.nodeID ∈ (n.scope E C inp).folds)
    (hmove : Move E (n.scope E C inp) m (m.onNewQCLocked E qc)) :
    Underway E C inp n (m.onNewQCLocked E qc) ∧
      ∃ l : List Block, (m.onNewQCLocked E qc).config = l.foldl (activation E) m.config ∧
        ∀ x ∈ l, isMembershipBlock E x = true → x ∈ n.due E C inp := by
  have hblocks := (Folding.onNewQCLocked (E := E) qc m).blocks
  rcases onNewQCLocked_commits (E := E) h.tree qc with
    ⟨hsets, hepoch, hexec⟩ | ⟨gp, hgp, hgpid, hhigh, hlevel, hconf, hexec⟩
  · exact ⟨h.calm hmove (hblocks ▸ h.tree) hexec, [], Prod.ext hsets hepoch,
      fun x hx => by cases hx⟩
  · have hheight := h.tree.height hgp
    have hgoal : gp.id ∈ n.goals E C inp := by
      refine List.mem_map.mpr ⟨qc.nodeID, List.mem_filter.mpr ⟨hmem, ?_⟩, hgpid.symm⟩
      have hq := h.moves.onward.qcHigh
      have hl := h.level
      rw [← hgpid]
      exact decide_eq_true ⟨by omega, by omega⟩
    have hin : gp.id ∈ m.blocks := GoMap.mem_iff_lookup.mpr ⟨gp, hgp⟩
    refine ⟨⟨h.moves.trans hmove.moves, hblocks ▸ h.tree, Or.inr ?_, ?_⟩, m.span gp, hconf, ?_⟩
    · rw [hexec, hblocks]
      exact ⟨hgoal, hin⟩
    · rw [hexec, (hblocks ▸ h.tree : Grown (m.onNewQCLocked E qc).blocks).heightOf (hblocks ▸ hin)]
      have := h.level
      omega
    · intro x hx hmemb
      have hwalk : x ∈ (m.path gp).takeWhile fun b => b.id ≠ m.bExec := List.mem_reverse.mp hx
      have hpath : x ∈ m.path gp := (List.takeWhile_sublist _).subset hwalk
      have hgood : gp.Good := (h.tree _ gp hgp).2
      have hlook : m.blocks.lookup x.id = some x := by
        rcases h.tree.mem_walk _ gp x hpath with rfl | hlook
        · exact hgp
        · exact hlook
      refine List.mem_filter.mpr ⟨h.moves.mem_pool hlook, decide_eq_true ⟨hmemb, gp.id, hgoal,
        walk_id_mem_ancestors h.tree _ gp hgood x hpath, fun hstraight => ?_⟩⟩
      -- `bExec` is below the goal, so the walk stops there
      have hbelow : m.bExec ∈ gp.id.ancestors ∧ n.bExec ∈ m.bExec.ancestors := by
        rcases h.exec with heq | ⟨hg, hgin⟩
        · rw [heq]
          exact ⟨(hstraight _ hgoal).1, n.bExec.self_mem_ancestors⟩
        · refine ⟨(hstraight _ hg).2 _ hgoal ?_, (hstraight _ hg).1⟩
          rw [h.tree.heightOf hgin] at hlevel
          omega
      exact fun hback => walk_down_to h.tree _ gp hgood hbelow.1 x hwalk
        (BlockID.ancestors_trans hback hbelow.2)

end Underway

/-- **What every due transition keeps of the configuration, the call keeps.** -/
theorem Planted.committing {Q : GoMap Nat ValidatorSet × Nat → Prop} (hp : Planted n)
    (hout : n.out = []) (hstep : ∀ c, ∀ x ∈ n.due E C inp, Q c → Q (activation E c x))
    (h : Q n.config) : Q (n.handle E C inp).config := by
  have hfold : ∀ (l : List Block) (c : GoMap Nat ValidatorSet × Nat),
      (∀ x ∈ l, isMembershipBlock E x = true → x ∈ n.due E C inp) → Q c →
        Q (l.foldl (activation E) c) := by
    intro l
    induction l with
    | nil => exact fun _ _ hc => hc
    | cons x l ih =>
      intro c hl hc
      refine ih _ (fun y hy => hl y (List.mem_cons_of_mem _ hy)) ?_
      by_cases hx : isMembershipBlock E x = true
      · exact hstep c x (hl x List.mem_cons_self hx) hc
      · rw [activation, if_pos hx]
        exact hc
  have hrun : (Underway E C inp n (n.handle E C inp) ∧ Growing n (n.handle E C inp)) ∧
      Q (n.handle E C inp).config := by
    refine (handle_moves hp.parked inp).1.invariant
      (P := fun m => (Underway E C inp n m ∧ Growing n m) ∧ Q m.config) ?_
      ⟨⟨⟨Moves.refl n, hp.tree, Or.inl rfl, le_refl _⟩, hp.tree, fun _ h => h, rfl,
        by simp [hout]⟩, h⟩
    rintro m m' ⟨⟨hu, hg⟩, hQ⟩ hm
    have hg' := hg.move hm
    have hquiet : Calm m m' → (Underway E C inp n m' ∧ Growing n m') ∧ Q m'.config := fun hc =>
      ⟨⟨hu.calm hm hg'.tree hc.bExec, hg'⟩, by
        unfold Replica.config at hQ ⊢
        rw [hc.sets, hc.epoch]
        exact hQ⟩
    cases hm with
    | aside ha => exact hquiet (Calm.aside ha)
    | insert b _ _ _ _ _ => exact hquiet (Calm.record b m)
    | own cmd _ _ _ => exact hquiet ((Calm.record _ m).trans (Calm.emit _ rfl rfl))
    | fold qc hmem hknown =>
      obtain ⟨hu', l, hconf, hl⟩ := hu.fold hmem (.fold qc hmem hknown)
      exact ⟨⟨hu', hg'⟩, hconf ▸ hfold l _ hl hQ⟩
    | adopt qc _ _ _ => exact hquiet ⟨rfl, rfl, rfl, rfl, rfl, rfl⟩
    | vote b _ _ _ => exact hquiet (Calm.castVote b m)
    | collect vc _ => exact hquiet ⟨rfl, rfl, rfl, rfl, rfl, rfl⟩
  exact hrun.2

/-- The same for a configuration whose sets are stored under their own epochs: a due transition
that takes effect writes the set of the epoch it opens, and moves there. -/
theorem Planted.transitions {Q : GoMap Nat ValidatorSet × Nat → Prop} (hp : Planted n)
    (hout : n.out = []) (hidx : Indexed n.sets)
    (hstep : ∀ c, ∀ x ∈ n.due E C inp, ∀ mc old ns, membershipOf E x = some mc →
      c.1.lookup x.epoch = some old → old.apply mc = some ns → Q c →
        Q (c.1.insert x.opens ns, x.opens)) (h : Q n.config) : Q (n.handle E C inp).config := by
  refine (hp.committing (Q := fun c => Indexed c.1 ∧ Q c) hout (fun c x hx hc => ?_) ⟨hidx, h⟩).2
  refine ⟨(activation_elsewhere (e := u64 (x.epoch + 1) + 1) hc.1 fun _ h => by omega).2, ?_⟩
  rcases activation_cases (E := E) hc.1 x with heq | ⟨-, mc, old, ns, hmc, hold, hns, -, heq⟩
  · rw [heq]
    exact hc.2
  · rw [heq]
    exact hstep c x hx mc old ns hmc hold hns hc.2

end Commits

end Cachey.HotStuff
