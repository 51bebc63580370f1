/-
# The configuration of a branch, read off its ids

A block id is the digest of (view, height, parent, cmd): it holds every command on the way down to
the root.  So the epoch and the validator set that `epochAndSetOfLocked` derives by walking the
tree are a function of the IDS the walk meets and of what the replica starts from, the GC base with
its stored epoch and the set stored for it (`Origin`).  What a tree will derive once some blocks are
in it can be said before they are (`Cachey.HotStuff.Batch`).

* §1  Ids: their commands, and the ids on the way down to a base.
* §2  An origin, and what it derives from a list of ids.
* §3  `epochAndSetOfLocked` is the derivation of §2 over the ids of the path
      (`epochAndSetOfLocked_path`).
* §4  Which sets a commit can write: those of the epochs after the ones its blocks claim
      (`activation_elsewhere`).
-/
import Cachey.HotStuff.Collect
import Cachey.HotStuff.Executions
import Cachey.HotStuff.Validators

namespace Cachey.HotStuff

/-! ## 1. What an id says -/

namespace BlockID

/-- The command an id was hashed with. -/
def cmd : BlockID → Bytes
  | raw _ => []
  | digest _ _ _ cmd => cmd

/-- The ids from `id` down to `base`, newest first, `base` left out. -/
def since (id base : BlockID) : List BlockID := id.ancestors.takeWhile fun x => x ≠ base

variable {a b : BlockID}

theorem ancestors_parent (h : a ∈ b.ancestors) (hne : b ≠ a) :
    a ∈ b.parent.ancestors ∧ b.ancestors = b :: b.parent.ancestors := by
  cases b with
  | raw t =>
    simp only [ancestors, List.mem_singleton] at h
    exact absurd h.symm hne
  | digest v h' p cmd =>
    simp only [ancestors, List.mem_cons] at h
    exact ⟨h.resolve_left (Ne.symm hne), rfl⟩

theorem since_self (a : BlockID) : a.since a = [] := by
  cases a <;> simp [since, ancestors]

theorem since_of_ne (h : a ∈ b.ancestors) (hne : b ≠ a) : b.since a = b :: b.parent.since a := by
  unfold since
  rw [(ancestors_parent h hne).2, List.takeWhile_cons_of_pos (by simpa using hne)]

theorem parent_mem_ancestors (b : BlockID) : b.parent ∈ b.ancestors := by
  cases b with
  | raw t => exact List.mem_singleton_self _
  | digest v h p cmd => exact List.mem_cons_of_mem _ p.self_mem_ancestors

theorem ancestors_since : ∀ {b : BlockID}, a ∈ b.ancestors → b.ancestors = b.since a ++ a.ancestors
  | raw t, h => by
    obtain rfl := List.mem_singleton.mp h
    rw [since_self, List.nil_append]
  | digest v k p cmd, h => by
    by_cases hab : digest v k p cmd = a
    · rw [hab, since_self, List.nil_append]
    · obtain ⟨hp, hcons⟩ := ancestors_parent h hab
      rw [since_of_ne h hab, hcons, List.cons_append]
      exact congrArg _ (ancestors_since (b := p) hp)

theorem ancestors_comparable {c : BlockID} (ha : a ∈ c.ancestors) (hb : b ∈ c.ancestors) :
    a ∈ b.ancestors ∨ b ∈ a.ancestors := by
  rw [mem_ancestors_iff] at ha hb ⊢
  rw [mem_ancestors_iff]
  exact (ha.comparable hb).symm

theorem ancestors_trans {c : BlockID} (h₁ : a ∈ b.ancestors) (h₂ : b ∈ c.ancestors) :
    a ∈ c.ancestors :=
  mem_ancestors_iff.mpr ((mem_ancestors_iff.mp h₂).trans (mem_ancestors_iff.mp h₁))

end BlockID

/-- A chain of blocks from `id` up, lowest first. -/
def Chained : (id : BlockID) → List Block → Prop
  | _, [] => True
  | id, b :: rest => b.parent = id ∧ Chained b.id rest

/-! ## 2. An origin and what it derives -/

/-- One membership command applied to the set derived so far. -/
def applyCmd (E : Env) (set : Option ValidatorSet) (cmd : Bytes) : Option ValidatorSet :=
  applyTransition E set { (genesisBlock []).1 with cmd := cmd }

/-- Where a derivation starts: the GC base, the epoch stored in it and the set of that epoch. -/
structure Origin where
  base : BlockID
  epoch : Nat
  set : Option ValidatorSet
deriving DecidableEq

namespace Origin

/-- The membership commands of a list of ids. -/
def changes (E : Env) (ids : List BlockID) : List Bytes :=
  (ids.map BlockID.cmd).filter (isMembershipCmd E)

/-- The configuration after the membership commands of `ids` (newest first). -/
def carry (E : Env) (o : Origin) (ids : List BlockID) : Nat × Option ValidatorSet :=
  (u64 (o.epoch + (changes E ids).length), (changes E ids).reverse.foldl (applyCmd E) o.set)

end Origin

namespace Replica

def origin (n : Replica) : Origin :=
  match n.blocks.lookup n.gcBase with
  | none => { base := n.gcBase, epoch := 0, set := n.sets.lookup 0 }
  | some base => { base := n.gcBase, epoch := base.epoch, set := n.sets.lookup base.epoch }

end Replica

/-! ## 3. The derivation of a tree -/

/-- Above the base no parent is missing. -/
def Complete (n : Replica) : Prop :=
  ∀ id ∈ n.blocks, n.gcBase ∈ id.ancestors → id ≠ n.gcBase → id.parent ∈ n.blocks

/-- In a complete tree, what lies between a block and the base is there. -/
theorem Complete.between {n : Replica} (hc : Complete n) {x : BlockID}
    (hup : n.gcBase ∈ x.ancestors) : ∀ {id : BlockID}, id ∈ n.blocks → x ∈ id.ancestors →
    x ∈ n.blocks
  | .raw t, hid, hx => by
    rw [List.mem_singleton.mp hx]
    exact hid
  | .digest v k p cmd, hid, hx => by
    by_cases heq : BlockID.digest v k p cmd = x
    · exact heq ▸ hid
    · have hne : BlockID.digest v k p cmd ≠ n.gcBase := by
        intro hbase
        rw [← hbase] at hup
        have h₁ := BlockID.depth_lt_of_mem_ancestors hup (Ne.symm heq)
        have h₂ := BlockID.depth_lt_of_mem_ancestors hx heq
        omega
      have hpar : p ∈ n.blocks := hc _ hid (BlockID.ancestors_trans hup hx) hne
      exact Complete.between hc hup hpar (BlockID.ancestors_parent hx heq).1

namespace Block.Good

variable {b : Block}

theorem cmd (h : b.Good) : b.id.cmd = b.cmd := by
  rcases h with hg | hs
  · rw [hg.id_eq, hg.cmd_eq]
    rfl
  · rw [hs.addressed]
    rfl

end Block.Good

section Derived

variable {E : Env} {n : Replica} {b : Block}

/-- The membership blocks of a list of good blocks carry the membership commands of its ids. -/
theorem changes_map_id : ∀ {l : List Block}, (∀ b ∈ l, b.Good) →
    Origin.changes E (l.map Block.id) = (l.filter (isMembershipBlock E)).map Block.cmd
  | [], _ => rfl
  | b :: l, h => by
    have hrec := changes_map_id fun x hx => h x (List.mem_cons_of_mem _ hx)
    unfold Origin.changes at hrec ⊢
    rw [List.map_cons, List.map_cons, (h b List.mem_cons_self).cmd, List.filter_cons,
      List.filter_cons, hrec]
    unfold isMembershipBlock
    split <;> rfl

theorem applyAll_eq (set : Option ValidatorSet) (l : List Block) :
    applyAll E set l = (l.map Block.cmd).reverse.foldl (applyCmd E) set := by
  rw [← List.map_reverse, List.foldl_map]
  rfl

/-- The ids a walk meets: the block's own, then its ancestors as far as the tree holds them. -/
theorem walk_ids {blocks : GoMap BlockID Block} (ht : Grown blocks) : ∀ (fuel : ℕ) (b : Block),
    b.Sound → b.parent.depth < fuel →
    (walk blocks fuel b).map Block.id = b.id :: b.parent.ancestors.takeWhile (· ∈ blocks)
  | 0, _, _, hfuel => absurd hfuel (Nat.not_lt_zero _)
  | fuel + 1, b, hs, hfuel => by
    rw [walk, List.map_cons]
    cases hp : blocks.lookup b.parent with
    | none =>
      have hout : b.parent ∉ blocks := fun hin => by
        rw [← AList.lookup_isSome, hp] at hin
        cases hin
      have hnil : b.parent.ancestors.takeWhile (· ∈ blocks) = [] := by
        cases hb : b.parent <;> rw [hb] at hout <;> simp [BlockID.ancestors, hout]
      rw [hnil]
      split <;> rfl
    | some p =>
      have hin : b.parent ∈ blocks := GoMap.mem_iff_lookup.mpr ⟨p, hp⟩
      have hno : b.parent ≠ noID := fun h => ht.noID_notMem (h ▸ hin)
      obtain ⟨hpid, hg | hps⟩ := ht _ p hp
      · have hroot : b.parent.ancestors = [b.parent] := by
          rw [← hpid, hg.id_eq]
          rfl
        rw [if_neg hno, hroot]
        dsimp only
        rw [hg.walk, List.takeWhile_cons_of_pos (by simpa using hin), List.map_singleton, hpid]
        rfl
      · have hdepth : p.parent.depth < fuel := by
          rw [← hpid, hps.addressed] at hfuel
          simp only [blockID, BlockID.depth] at hfuel
          omega
        rw [if_neg hno]
        rw [walk_ids ht fuel p hps hdepth, ← hpid, hps.ancestors,
          List.takeWhile_cons_of_pos (by simpa [hpid] using hin)]

/-- **The derivation in terms of the path's ids**, for a block above the base. -/
theorem epochAndSetOfLocked_path (hp : Planted n) (hs : b.Sound)
    (habove : n.gcBase.height < b.height) : n.epochAndSetOfLocked E b =
      n.origin.carry E ((((n.path b).map Block.id).takeWhile (· ≠ n.gcBase)).drop 3) := by
  obtain ⟨base, hbase⟩ := GoMap.mem_iff_lookup.mp hp.base
  have hnot : ¬ b.height ≤ base.height := by
    rw [hp.tree.height hbase]
    omega
  have hanc : n.ancestry b = (n.path b).takeWhile fun x => x.id ≠ n.gcBase := by
    simp [Replica.ancestry, hbase, hnot]
  obtain ⟨rest, hrest⟩ := ancestry_append n b
  have hbranch : Branch (n.ancestry b) :=
    Branch.left rest (hrest ▸ hp.tree.branch_walk _ b (Or.inr hs.certifies))
  have hgood : ∀ x ∈ (n.ancestry b).drop 3, x.Good := by
    intro x hx
    have hx : x ∈ n.path b := hrest ▸ List.mem_append_left _ ((List.drop_sublist 3 _).subset hx)
    exact hp.tree.standing.path hp.tree (Or.inr hs) x hx
  have hch : Origin.changes E ((((n.path b).map Block.id).takeWhile (· ≠ n.gcBase)).drop 3) =
      (transitions E none none none (n.ancestry b)).map Block.cmd := by
    rw [transitions_branch hbranch, ← changes_map_id hgood, List.map_drop, hanc,
      List.takeWhile_map]
    rfl
  have ho : n.origin = { base := n.gcBase, epoch := base.epoch, set := n.sets.lookup base.epoch } := by
    simp [Replica.origin, hbase]
  rw [epochAndSetOfLocked_eq hbase, if_neg hnot, ho]
  unfold Origin.carry
  rw [hch, List.length_map, applyAll_eq]

theorem epochAndSetOfLocked_low (hp : Planted n) (hlow : b.height ≤ n.gcBase.height) :
    n.epochAndSetOfLocked E b = (n.origin.epoch, n.origin.set) := by
  obtain ⟨base, hbase⟩ := GoMap.mem_iff_lookup.mp hp.base
  rw [← hp.tree.height hbase] at hlow
  simp [Replica.epochAndSetOfLocked, Replica.origin, hbase, hlow]

end Derived

/-! ## 4. The sets a commit can write -/

/-- Every set is stored under its own epoch. -/
def Indexed (sets : GoMap Nat ValidatorSet) : Prop := ∀ x ∈ sets.entries, x.2.epoch = x.1

theorem indexed_iff {sets : GoMap Nat ValidatorSet} :
    Indexed sets ↔ ∀ e S, sets.lookup e = some S → S.epoch = e := by
  constructor
  · intro h e S hS
    exact h ⟨e, S⟩ (AList.mem_lookup_iff.mp hS)
  · rintro h ⟨e, S⟩ hx
    exact h e S (AList.mem_lookup_iff.mpr hx)

theorem ValidatorSet.apply_epoch {S ns : ValidatorSet} {mc : MembershipChange}
    (h : S.apply mc = some ns) : ns.epoch = u64 (S.epoch + 1) := by
  obtain ⟨-, rfl⟩ := apply_eq_some_iff.mp h
  rfl

/-- The epoch whose set a committed transition writes. -/
def Block.opens (b : Block) : ℕ := u64 (b.epoch + 1)

section Activation

variable {E : Env} {e : ℕ}

/-- **A committed transition** does nothing, or writes the set of the epoch after the one it
claims. -/
theorem activation_cases {c : GoMap Nat ValidatorSet × Nat} (hidx : Indexed c.1) (b : Block) :
    activation E c b = c ∨ isMembershipBlock E b = true ∧ ∃ mc old ns,
      membershipOf E b = some mc ∧ c.1.lookup b.epoch = some old ∧ old.apply mc = some ns ∧
      ns.epoch = b.opens ∧ activation E c b = (c.1.insert b.opens ns, b.opens) := by
  unfold activation
  by_cases hmem : isMembershipBlock E b = true
  · rw [if_neg (not_not.mpr hmem)]
    cases hmc : membershipOf E b with
    | none => exact Or.inl rfl
    | some mc =>
      cases hold : c.1.lookup b.epoch with
      | none => exact Or.inl rfl
      | some old =>
        dsimp only
        cases hns : old.apply mc with
        | none => exact Or.inl rfl
        | some ns =>
          have hep : ns.epoch = b.opens := by
            rw [ValidatorSet.apply_epoch hns, indexed_iff.mp hidx _ old hold]
            rfl
          dsimp only
          exact Or.inr ⟨hmem, mc, old, ns, rfl, rfl, hns, hep, by rw [hep]⟩
  · rw [if_pos hmem]
    exact Or.inl rfl

theorem Indexed.insert {sets : GoMap Nat ValidatorSet} (h : Indexed sets) {e : ℕ}
    {S : ValidatorSet} (hS : S.epoch = e) : Indexed (sets.insert e S) := by
  refine indexed_iff.mpr fun e' S' hS' => ?_
  rw [GoMap.lookup_insert_of] at hS'
  split at hS'
  next heq => rw [heq, ← Option.some.inj hS', hS]
  next => exact indexed_iff.mp h e' S' hS'

theorem activation_elsewhere {c : GoMap Nat ValidatorSet × Nat} (hidx : Indexed c.1) {b : Block}
    (hne : isMembershipBlock E b = true → u64 (b.epoch + 1) ≠ e) :
    (activation E c b).1.lookup e = c.1.lookup e ∧ Indexed (activation E c b).1 := by
  rcases activation_cases (E := E) hidx b with heq | ⟨hmem, mc, old, ns, -, -, -, hep, heq⟩
  · rw [heq]
    exact ⟨rfl, hidx⟩
  · rw [heq]
    refine ⟨?_, hidx.insert hep⟩
    rw [GoMap.lookup_insert_of, if_neg fun h => hne hmem h.symm]

theorem foldl_activation_elsewhere : ∀ (l : List Block) (c : GoMap Nat ValidatorSet × Nat),
    Indexed c.1 → (∀ b ∈ l, isMembershipBlock E b = true → u64 (b.epoch + 1) ≠ e) →
    (l.foldl (activation E) c).1.lookup e = c.1.lookup e ∧ Indexed (l.foldl (activation E) c).1
  | [], c, hidx, _ => ⟨rfl, hidx⟩
  | b :: l, c, hidx, hl => by
    obtain ⟨h₁, hidx₁⟩ := activation_elsewhere (E := E) hidx (hl b List.mem_cons_self)
    obtain ⟨h₂, hidx₂⟩ := foldl_activation_elsewhere l _ hidx₁
      fun x hx => hl x (List.mem_cons_of_mem _ hx)
    exact ⟨h₂.trans h₁, hidx₂⟩

end Activation

end Cachey.HotStuff
