/-
# Insertion keeps the shape

One lemma for each function of the insertion path; each says what becomes of the node, of the pairs
below it and of the pointers of its leaves.

* `Takes`: what an insertion does to the leaves below a node.  The pairs gain the target, and
  either no pointer changes or one leaf is split.
* `insertLeaf_spec`, `splitInternal_spec`, `insertSplit_spec`, `insert_spec`.
-/
import Cachey.BTree.Shape

namespace Cachey.BTree

/-- The leaves take the target in. -/
structure Takes (fresh : ℕ) (target : Expiration) (L L' : List Leaf) : Prop where
  mem : ∀ x, x ∈ L'.flatMap Leaf.keys ↔ x = target ∨ x ∈ L.flatMap Leaf.keys
  links : Grows fresh (links L) (links L')

theorem Takes.context {fresh : ℕ} {target : Expiration} {L L' : List Leaf}
    (h : Takes fresh target L L') (U V : List Leaf) :
    Takes fresh target (U ++ (L ++ V)) (U ++ (L' ++ V)) where
  mem := fun x => by
    simp only [List.flatMap_append, List.mem_append, h.mem x]
    tauto
  links := by
    simp only [links_append]
    exact h.links.context _ _

/-- What an insertion leaves of a node between two bounds: the node, or two with a separator. -/
inductive Inserted (fresh : ℕ) (target : Expiration) {h : ℕ} (lo hi : Option Expiration)
    (n : Node h) : Node h × Option (SplitResult h) → Prop where
  | whole {n' : Node h} : Good h lo hi n' → n'.keys.length ≤ maxKeys →
      n.keys.length ≤ n'.keys.length → Takes fresh target n.leaves n'.leaves →
      Inserted fresh target lo hi n (n', none)
  | split {n' : Node h} {s : SplitResult h} : Separated (Child h) lo hi [s.key] [n', s.right] →
      Takes fresh target n.leaves (n'.leaves ++ s.right.leaves) →
      Inserted fresh target lo hi n (n', some s)

variable {fresh h : ℕ} {target : Expiration} {lo hi : Option Expiration} {A B : List Expiration}

/-! ## 1. Leaves

A leaf that has taken in one key too many is cut in the middle; the first key of the right half goes
up as a separator and stays in the leaf as well. -/

theorem insertAt_cut {β : Type} (A B : List β) (x : β) :
    insertAt (A ++ B) A.length x = A ++ x :: B := by
  simp [insertAt]

theorem pairwise_insert (hs : (A ++ B).Pairwise (· < ·)) (hA : ∀ a ∈ A, a < target)
    (hB : ∀ b ∈ B, target < b) : (A ++ target :: B).Pairwise (· < ·) := by
  obtain ⟨h₁, h₂, h₃⟩ := List.pairwise_append.mp hs
  refine List.pairwise_append.mpr ⟨h₁, List.pairwise_cons.mpr ⟨hB, h₂⟩, fun a ha b hb => ?_⟩
  rcases List.mem_cons.mp hb with rfl | hb
  · exact hA a ha
  · exact h₃ a ha b hb

theorem splitLeaf_spec (fresh : ℕ) {l : Leaf} (hs : l.keys.Pairwise (· < ·))
    (hb : ∀ x ∈ l.keys, Between lo hi x) (hlen : l.keys.length = maxKeys + 1) :
    ∃ l' s, splitLeaf fresh l = some (l', s) ∧
      Separated (Child 0) lo hi [s.key] [(l' : Node 0), s.right] ∧
      l'.keys ++ Leaf.keys s.right = l.keys ∧ l'.id = l.id ∧ l'.next = some fresh ∧
      Leaf.id s.right = fresh ∧ Leaf.next s.right = l.next := by
  obtain ⟨i, keys, next⟩ := l
  obtain ⟨A, k, B, rfl, hA⟩ := exists_cut (l := keys) (i := 4) (by rw [hlen]; decide)
  have hB : B.length = 3 := by
    simp only [List.length_append, List.length_cons, hA] at hlen
    have : maxKeys = 7 := rfl
    omega
  have hmid : (A ++ k :: B).length / 2 = A.length := by
    rw [hlen, hA]
    rfl
  refine ⟨⟨i, A, some fresh⟩, ⟨k, (⟨fresh, k :: B, next⟩ : Leaf)⟩, ?_, ?_, rfl, rfl, rfl, rfl, rfl⟩
  · unfold splitLeaf
    rw [hmid]
    simp
  · refine leaves_cut hs hb ?_ ?_ _ _ _ _
    · rw [hA]
      decide
    · rw [List.length_cons, hB]
      decide

theorem insertLeaf_spec {l : Node 0} (hg : Good 0 lo hi l) (hlen : l.keys.length ≤ maxKeys)
    (ht : Between lo hi target) :
    ∃ r, insertLeaf fresh target l = some r ∧ Inserted fresh target lo hi l r := by
  obtain ⟨i, keys, next⟩ : Leaf := l
  obtain ⟨hs, hb⟩ := hg
  change keys.length ≤ maxKeys at hlen
  obtain ⟨A, B, rfl, hidx, hA, hB⟩ := lowerBound_spec hs target
  have hfound := found_iff hA hB hs
  unfold insertLeaf
  rw [hidx]
  by_cases hin : target ∈ A ++ B
  · rw [if_pos (hfound.mpr hin)]
    refine ⟨_, rfl, .whole ⟨hs, hb⟩ hlen le_rfl ⟨fun x => ?_, Or.inl rfl⟩⟩
    change x ∈ A ++ B ++ [] ↔ _ ∨ x ∈ A ++ B ++ []
    rw [List.append_nil]
    exact ⟨Or.inr, fun h => h.elim (fun h => h ▸ hin) id⟩
  · rw [if_neg (fun h => hin (hfound.mp h)), insertAt_cut]
    have hlt : ∀ b ∈ B, target < b := fun b hb' =>
      lt_of_le_of_ne (hB b hb') fun h => hin (List.mem_append_right _ (h ▸ hb'))
    have hs' := pairwise_insert hs hA hlt
    have hb' : ∀ x ∈ A ++ target :: B, Between lo hi x := by
      intro x hx
      rcases List.mem_append.mp hx with hx | hx
      · exact hb x (List.mem_append_left _ hx)
      · rcases List.mem_cons.mp hx with rfl | hx
        · exact ht
        · exact hb x (List.mem_append_right _ hx)
    have hmem : ∀ x, x ∈ A ++ target :: B ↔ x = target ∨ x ∈ A ++ B := by
      intro x
      simp only [List.mem_append, List.mem_cons]
      tauto
    by_cases hfit : (A ++ target :: B).length ≤ maxKeys
    · rw [if_pos hfit]
      refine ⟨_, rfl, .whole ⟨hs', hb'⟩ hfit ?_ ⟨fun x => ?_, Or.inl rfl⟩⟩
      · change (A ++ B).length ≤ (A ++ target :: B).length
        simp
      · change x ∈ A ++ target :: B ++ [] ↔ _ ∨ x ∈ A ++ B ++ []
        rw [List.append_nil, List.append_nil]
        exact hmem x
    · rw [if_neg hfit]
      have hlen' : (A ++ target :: B).length = maxKeys + 1 := by
        simp only [List.length_append, List.length_cons] at hlen hfit ⊢
        omega
      obtain ⟨l', s, heq, hsep, hkeys, hid, hnext, hid', hnext'⟩ :=
        splitLeaf_spec fresh (l := ⟨i, A ++ target :: B, next⟩) hs' hb' hlen'
      rw [heq]
      refine ⟨_, rfl, .split hsep ⟨fun x => ?_, Or.inr ⟨[], i, next, [], rfl, ?_⟩⟩⟩
      · change x ∈ l'.keys ++ (Leaf.keys s.right ++ []) ↔ _ ∨ x ∈ A ++ B ++ []
        rw [List.append_nil, List.append_nil, hkeys]
        exact hmem x
      · change [(l'.id, l'.next), (Leaf.id s.right, Leaf.next s.right)] = _
        rw [hid, hnext, hid', hnext']
        rfl

/-! ## 2. Inner nodes

Here the key in the middle goes up and does NOT stay.  The induction is on the height; its hypothesis
about the child comes in through `hput`, which says that whatever fits between the child's bounds
may take its place. -/

/-- An inner node with one key too many becomes two, and a key goes up. -/
theorem splitInternal_spec {n : Inner (Node h)}
    (hg : Separated (Child h) lo hi n.keys n.children) (hlen : n.keys.length = maxKeys + 1) :
    ∃ n' s, splitInternal n = some (n', s) ∧
      Separated (Child (h + 1)) lo hi [s.key] [(n' : Node (h + 1)), s.right] ∧
      Node.leaves (h := h + 1) n' ++ s.right.leaves = Node.leaves (h := h + 1) n := by
  obtain ⟨keys, children⟩ := n
  obtain ⟨A, k, B, rfl, hA⟩ := exists_cut (l := keys) (i := 4) (by rw [hlen]; decide)
  have hB : B.length = 3 := by
    simp only [List.length_append, List.length_cons, hA] at hlen
    have : maxKeys = 7 := rfl
    omega
  have hmid : (A ++ k :: B).length / 2 = A.length := by
    rw [hlen, hA]
    rfl
  have hchildren := hg.length
  simp only [List.length_append, List.length_cons] at hchildren
  -- the children left of the key that goes up, and those right of it
  have hcut : children = children.take (A.length + 1) ++ children.drop (A.length + 1) :=
    (List.take_append_drop _ _).symm
  have hU : (children.take (A.length + 1)).length = A.length + 1 := by
    rw [List.length_take]
    omega
  refine ⟨⟨A, children.take (A.length + 1)⟩,
    ⟨k, (⟨B, children.drop (A.length + 1)⟩ : Inner (Node h))⟩, ?_, ?_, ?_⟩
  · unfold splitInternal
    rw [hmid]
    simp
  · rw [hcut] at hg
    refine inners_cut hg hU ?_ ?_
    · rw [hA]
      decide
    · rw [hB]
      decide
  · change (children.take (A.length + 1)).flatMap Node.leaves ++
      (children.drop (A.length + 1)).flatMap Node.leaves = children.flatMap Node.leaves
    rw [← List.flatMap_append, List.take_append_drop]

theorem insertSplit_spec {U V : List (Node h)} {c : Node h} {lo' hi' : Option Expiration}
    {r : Node h × Option (SplitResult h)} (hU : U.length = A.length)
    (hlen : (A ++ B).length ≤ maxKeys) (hc : Full c) (hr : Inserted fresh target lo' hi' c r)
    (hput : ∀ K C, Separated (Child h) lo' hi' K C →
      Separated (Child h) lo hi (A ++ (K ++ B)) (U ++ (C ++ V))) :
    ∃ r', insertSplit A.length (⟨A ++ B, U ++ r.1 :: V⟩ : Inner (Node h)) r.2 = some r' ∧
      Inserted (h := h + 1) fresh target lo hi (⟨A ++ B, U ++ c :: V⟩ : Inner (Node h)) r' := by
  have hctx : ∀ {L L' : List Leaf}, Takes fresh target L L' →
      Takes fresh target (U.flatMap Node.leaves ++ (L ++ V.flatMap Node.leaves))
        (U.flatMap Node.leaves ++ (L' ++ V.flatMap Node.leaves)) := fun ht => ht.context _ _
  have hbefore : Node.leaves (h := h + 1) (⟨A ++ B, U ++ c :: V⟩ : Inner (Node h)) =
      U.flatMap Node.leaves ++ (c.leaves ++ V.flatMap Node.leaves) := by
    rw [leaves_inner, List.flatMap_append, List.flatMap_cons]
  cases hr with
  | whole hg hmax hmin ht =>
    next n' =>
    refine ⟨_, rfl, .whole (hput [] [n'] (.single ⟨hg, le_trans hc.1 hmin, hmax⟩)) hlen le_rfl ?_⟩
    rw [hbefore, leaves_inner, List.flatMap_append, List.flatMap_cons]
    exact hctx ht
  | split hsep ht =>
    next n' s =>
    have hgood := hput _ _ hsep
    have hkeys : insertAt (A ++ B) A.length s.key = A ++ ([s.key] ++ B) := insertAt_cut A B s.key
    have hkids : insertAt (U ++ n' :: V) (A.length + 1) s.right = U ++ ([n', s.right] ++ V) := by
      have := insertAt_cut (U ++ [n']) V s.right
      simp only [List.length_append, List.length_cons, List.length_nil, hU] at this
      simpa using this
    have hafter : (U ++ ([n', s.right] ++ V)).flatMap Node.leaves =
        U.flatMap Node.leaves ++ (n'.leaves ++ s.right.leaves ++ V.flatMap Node.leaves) := by
      simp [List.flatMap_append]
    unfold insertSplit
    dsimp only
    rw [hkeys, hkids]
    by_cases hfit : (A ++ ([s.key] ++ B)).length ≤ maxKeys
    · rw [if_pos hfit]
      refine ⟨_, rfl, .whole hgood hfit ?_ ?_⟩
      · change (A ++ B).length ≤ (A ++ ([s.key] ++ B)).length
        simp
      · rw [hbefore, leaves_inner, hafter]
        exact hctx ht
    · rw [if_neg hfit]
      have hlen' : (A ++ ([s.key] ++ B)).length = maxKeys + 1 := by
        simp only [List.length_append, List.length_cons, List.length_nil] at hlen hfit ⊢
        omega
      obtain ⟨m, s', heq, hsep', hleaves⟩ := splitInternal_spec
        (n := ⟨A ++ ([s.key] ++ B), U ++ ([n', s.right] ++ V)⟩) hgood hlen'
      rw [heq]
      refine ⟨_, rfl, .split hsep' ?_⟩
      rw [hleaves, hbefore, leaves_inner, hafter]
      exact hctx ht

theorem insert_inner (n : Inner (Node h)) :
    Node.insert (h := h + 1) fresh target n =
      (n.children[childIndex n.keys target]?).bind fun child =>
        (child.insert fresh target).bind fun r =>
          insertSplit (childIndex n.keys target)
            { n with children := n.children.set (childIndex n.keys target) r.1 } r.2 := rfl

theorem insert_spec (fresh : ℕ) : ∀ {h : ℕ} {lo hi : Option Expiration} {n : Node h},
    Good h lo hi n → n.keys.length ≤ maxKeys → Between lo hi target →
    ∃ r, n.insert fresh target = some r ∧ Inserted fresh target lo hi n r
  | 0, _, _, _, hg, hlen, ht => insertLeaf_spec hg hlen ht
  | h + 1, lo, hi, n, hg, hlen, ht => by
    obtain ⟨keys, children⟩ : Inner (Node h) := n
    obtain ⟨A, B, U, c, V, rfl, rfl, hU, hidx, -, -, -, -, lo', hi', hc, ht', hput⟩ := descend hg ht
    obtain ⟨r, heq, hr⟩ := insert_spec fresh hc.1 hc.2.2 ht'
    obtain ⟨r', heq', hr'⟩ := insertSplit_spec hU hlen hc.2 hr hput
    refine ⟨r', ?_, hr'⟩
    have hget : (U ++ c :: V)[A.length]? = some c := by rw [← hU, get_cut]
    have hset : (U ++ c :: V).set A.length r.1 = U ++ r.1 :: V := by rw [← hU, set_cut]
    refine (insert_inner _).trans ?_
    rw [hidx, hget, Option.bind_some, heq, Option.bind_some, hset]
    exact heq'

end Cachey.BTree
