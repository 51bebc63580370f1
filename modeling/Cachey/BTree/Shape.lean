/-
# The shape of the B+tree

What holds of every node between two calls, and what the two searches find in a node of that shape.

* `Good`: the keys of a leaf are in order and between the bounds that the separators above it
  give; an inner node is a `Separated` sequence of good children.  A separator need NOT be in the
  tree: its pair may have been deleted since.
* `Full`: how many keys a node has that is not the root.
* `lowerBound_spec`, `childIndex_spec`: a search cuts the keys at the target.
* `descend`: the child a search leads to, with its bounds and with what may take its place.
* `Linked`: the pointers of the leaves, in the order of the leaves.
-/
import Cachey.BTree.Node
import Cachey.Lib.Separated

namespace Cachey.BTree

/-! ## 1. Searching -/

variable {keys K K' : List Expiration} {h : ℕ} {lo hi : Option Expiration} {target k : Expiration}

theorem searchKeys_spec (high : Expiration → Bool)
    (hs : keys.Pairwise fun a b => high a = true → high b = true) :
    ∃ A B, keys = A ++ B ∧ searchKeys keys high = A.length ∧ (∀ a ∈ A, high a = false) ∧
      ∀ b ∈ B, high b = true := by
  have hat : ∀ {i : ℕ} (hi : i < keys.length), highAt keys high i = high keys[i] := by
    intro i hi
    rw [highAt, List.getElem?_eq_getElem hi]
  obtain ⟨-, hle, hlow, hhigh⟩ := searchLoop_spec (highAt keys high)
    (by
      intro a b hab ha
      rcases Nat.lt_or_ge b keys.length with hb | hb
      · rw [hat hb]
        rw [hat (by omega)] at ha
        rcases Nat.lt_or_ge a b with hlt | hge
        · exact List.pairwise_iff_getElem.mp hs a b (by omega) hb hlt ha
        · have : a = b := by omega
          subst this
          exact ha
      · simp [highAt, List.getElem?_eq_none hb])
    keys.length 0 keys.length (Nat.zero_le _) (by omega) (fun a ha => absurd ha (by omega))
  change searchKeys keys high ≤ _ at hle
  change ∀ a, a < searchKeys keys high → _ at hlow
  change ∀ a, searchKeys keys high ≤ a → _ at hhigh
  generalize searchKeys keys high = i at hle hlow hhigh
  refine ⟨keys.take i, keys.drop i, (List.take_append_drop i keys).symm, ?_, ?_, ?_⟩
  · rw [List.length_take, min_eq_left hle]
  · intro a ha
    obtain ⟨j, hj, rfl⟩ := List.getElem_of_mem ha
    rw [List.length_take] at hj
    have := hlow j (by omega)
    rw [hat (by omega)] at this
    rwa [List.getElem_take]
  · intro b hb
    obtain ⟨j, hj, rfl⟩ := List.getElem_of_mem hb
    rw [List.length_drop] at hj
    have := hhigh (i + j) (by omega) (by omega)
    rw [hat (by omega)] at this
    rwa [List.getElem_drop]

theorem lowerBound_spec (hs : keys.Pairwise (· < ·)) (target : Expiration) :
    ∃ A B, keys = A ++ B ∧ lowerBound keys target = A.length ∧
      (∀ a ∈ A, a < target) ∧ ∀ b ∈ B, target ≤ b := by
  obtain ⟨A, B, heq, hidx, hA, hB⟩ := searchKeys_spec (fun k => !less k target)
    (hs.imp fun {a b} hab ha => by
      simp only [Bool.not_eq_true', ← Bool.not_eq_true, less_iff, not_lt] at ha ⊢
      exact le_trans ha (le_of_lt hab))
  refine ⟨A, B, heq, hidx, fun a ha => ?_, fun b hb => ?_⟩
  · exact less_iff.mp (by simpa using hA a ha)
  · have := hB b hb
    simp only [Bool.not_eq_true', ← Bool.not_eq_true, less_iff, not_lt] at this
    exact this

theorem childIndex_spec (hs : keys.Pairwise (· < ·)) (target : Expiration) :
    ∃ A B, keys = A ++ B ∧ childIndex keys target = A.length ∧
      (∀ a ∈ A, a ≤ target) ∧ ∀ b ∈ B, target < b := by
  obtain ⟨A, B, heq, hidx, hA, hB⟩ := searchKeys_spec (fun k => less target k)
    (hs.imp fun {a b} hab ha => less_iff.mpr (lt_trans (less_iff.mp ha) hab))
  refine ⟨A, B, heq, hidx, fun a ha => ?_, fun b hb => less_iff.mp (hB b hb)⟩
  have := hA a ha
  simp only [← Bool.not_eq_true, less_iff, not_lt] at this
  exact this

theorem found_iff {A B : List Expiration} (hA : ∀ a ∈ A, a < target) (hB : ∀ b ∈ B, target ≤ b)
    (hs : (A ++ B).Pairwise (· < ·)) : found (A ++ B) A.length target = true ↔ target ∈ A ++ B := by
  unfold found
  rw [List.getElem?_append_right le_rfl, Nat.sub_self]
  have hnot : target ∉ A := fun h => lt_irrefl _ (hA target h)
  cases B with
  | nil => simpa using hnot
  | cons b B =>
    simp only [List.getElem?_cons_zero, equal_iff, List.mem_append, List.mem_cons, hnot, false_or]
    constructor
    · exact fun h => Or.inl h.symm
    · rintro (h | h)
      · exact h.symm
      · have hb := (List.pairwise_cons.mp (List.pairwise_append.mp hs).2.1).1 target h
        exact absurd (lt_of_le_of_lt (hB b List.mem_cons_self) hb) (lt_irrefl _)

/-! ## 2. Good nodes

The bounds are handed down: `lo` is the separator to the left of a node, `hi` the one to its right,
`none` where there is none.  That the pairs below a node are in order is then an induction on the
height that never compares two subtrees. -/

/-- The number of keys of a node that is not the root.  The root is exempt: it may be an empty leaf,
or an inner node with a single key. -/
def Full {h : ℕ} (n : Node h) : Prop := minKeys ≤ n.keys.length ∧ n.keys.length ≤ maxKeys

/-- A node between two bounds, in order all the way down.  It says nothing about the number of keys
of the node itself, only about those below: `Full` is asked of the children, so that a repair can
start from a child that lacks a key. -/
def Good : (h : ℕ) → Option Expiration → Option Expiration → Node h → Prop
  | 0, lo, hi, l => (Leaf.keys l).Pairwise (· < ·) ∧ ∀ x ∈ Leaf.keys l, Between lo hi x
  | h + 1, lo, hi, n =>
    Separated (fun lo hi (c : Node h) => Good h lo hi c ∧ Full c) lo hi (Inner.keys n)
      (Inner.children n)

/-- The pairs below a node, from left to right. -/
def Node.entries {h : ℕ} (n : Node h) : List Expiration := n.leaves.flatMap Leaf.keys

section Good

variable {h : ℕ} {lo hi : Option Expiration}

theorem entries_leaf (l : Node 0) : l.entries = Leaf.keys l := List.append_nil (Leaf.keys l)

theorem entries_inner (n : Node (h + 1)) :
    n.entries = (Inner.children n).flatMap Node.entries := by
  simp only [Node.entries, Node.leaves, List.flatMap_assoc]
  rfl

theorem Good.between : ∀ {h : ℕ} {lo hi : Option Expiration} {n : Node h}, Good h lo hi n →
    ∀ x ∈ n.entries, Between lo hi x
  | 0, _, _, n, hg => by
    rw [entries_leaf]
    exact hg.2
  | h + 1, _, _, n, hg => by
    rw [entries_inner]
    exact Separated.between (fun _ _ _ hc => Good.between hc.1) hg

theorem Good.pairwise : ∀ {h : ℕ} {lo hi : Option Expiration} {n : Node h}, Good h lo hi n →
    n.entries.Pairwise (· < ·)
  | 0, _, _, n, hg => by
    rw [entries_leaf]
    exact hg.1
  | h + 1, _, _, n, hg => by
    rw [entries_inner]
    exact Separated.pairwise (fun _ _ _ hc => Good.between hc.1)
      (fun _ _ _ hc => Good.pairwise hc.1) hg

end Good

/-- The children of an inner node. -/
abbrev Child (h : ℕ) (lo hi : Option Expiration) (c : Node h) : Prop := Good h lo hi c ∧ Full c

theorem leaves_inner (keys : List Expiration) (children : List (Node h)) :
    Node.leaves (h := h + 1) (⟨keys, children⟩ : Inner (Node h)) =
      children.flatMap Node.leaves := rfl

section Cut

variable {β : Type} (U V : List β) (c c' d : β)

theorem get_cut : (U ++ c :: V)[U.length]? = some c := by simp

theorem get_next : (U ++ c :: d :: V)[U.length + 1]? = some d := by simp

theorem set_cut : (U ++ c :: V).set U.length c' = U ++ c' :: V := by simp

theorem set_next : (U ++ c :: d :: V).set (U.length + 1) c' = U ++ c :: c' :: V := by
  rw [List.set_append_right _ _ (by omega), Nat.add_sub_cancel_left]
  rfl

theorem erase_cut : (U ++ c :: V).eraseIdx U.length = U ++ V := by
  rw [List.eraseIdx_append_of_length_le le_rfl, Nat.sub_self]
  rfl

theorem erase_next : (U ++ c :: d :: V).eraseIdx (U.length + 1) = U ++ c :: V := by
  rw [List.eraseIdx_append_of_length_le (by omega), Nat.add_sub_cancel_left]
  rfl

end Cut

theorem exists_cut {β : Type} {l : List β} {i : ℕ} (hi : i < l.length) :
    ∃ U c V, l = U ++ c :: V ∧ U.length = i := by
  refine ⟨l.take i, l[i], l.drop (i + 1), ?_, ?_⟩
  · rw [List.getElem_cons_drop, List.take_append_drop]
  · rw [List.length_take, min_eq_left hi.le]

/-- **Where the search leads.**  The keys are cut at the target, and one child lies at the cut. -/
theorem descend {children : List (Node h)} (hg : Separated (Child h) lo hi keys children)
    (ht : Between lo hi target) :
    ∃ A B U c V, keys = A ++ B ∧ children = U ++ c :: V ∧ U.length = A.length ∧
      childIndex keys target = A.length ∧ (∀ a ∈ A, a ≤ target) ∧ (∀ b ∈ B, target < b) ∧
      (∀ x ∈ U.flatMap Node.entries, x < target) ∧
      (∀ x ∈ V.flatMap Node.entries, target < x) ∧
      ∃ lo' hi', Child h lo' hi' c ∧ Between lo' hi' target ∧
        ∀ K C, Separated (Child h) lo' hi' K C →
          Separated (Child h) lo hi (A ++ (K ++ B)) (U ++ (C ++ V)) := by
  have hf : ∀ lo hi c, Child h lo hi c → ∀ x ∈ c.entries, Between lo hi x :=
    fun _ _ _ hc => Good.between hc.1
  obtain ⟨A, B, rfl, hidx, hA, hB⟩ := childIndex_spec hg.sorted target
  have hlen := hg.length
  rw [List.length_append] at hlen
  obtain ⟨U, c, V, rfl, hU⟩ := exists_cut (l := children) (i := A.length) (by omega)
  refine ⟨A, B, U, c, V, rfl, rfl, hU, hidx, hA, hB, fun x hx => ?_, fun x hx => ?_, ?_⟩
  · obtain ⟨a, ha, hlt⟩ := Separated.before hf hg hU x hx
    exact lt_of_lt_of_le hlt (hA a ha)
  · obtain ⟨lo', hin, -, -⟩ := Separated.window_low hg hU
    obtain ⟨b, hb, hle⟩ := Separated.after hf (M := []) (D := [c]) hin rfl x hx
    exact lt_of_lt_of_le (hB b hb) hle
  · obtain ⟨lo', hi', hin, hlo, hhi, hput⟩ :=
      Separated.window (K := []) (C := [c]) (B := B) (V := V) hg hU rfl
    cases hin with
    | single hc =>
      refine ⟨lo', hi', hc, ⟨fun a ha => ?_, fun b hb => ?_⟩, hput⟩
      · exact (hlo a ha).elim (ht.1 a) (hA a)
      · exact (hhi b hb).elim (ht.2 b) (hB b)

/-! ## 3. Two neighbours as one sequence

Whatever moves between two neighbours, they are cut out of ONE sequence: the keys of two leaves one
after the other, or the keys and children of two inner nodes with the separator between them. -/

theorem leaves_join {s : Expiration} {l c : Node 0} (hl : Good 0 lo (some s) l)
    (hs : Inside lo hi s) (hc : Good 0 (some s) hi c) :
    (Leaf.keys l ++ Leaf.keys c).Pairwise (· < ·) ∧
      ∀ x ∈ Leaf.keys l ++ Leaf.keys c, Between lo hi x := by
  constructor
  · refine List.pairwise_append.mpr ⟨hl.1, hc.1, fun x hx y hy => ?_⟩
    exact lt_of_lt_of_le ((hl.2 x hx).2 s rfl) ((hc.2 y hy).1 s rfl)
  · intro x hx
    rcases List.mem_append.mp hx with hx | hx
    · exact Between.of_low hs (hl.2 x hx)
    · exact Between.of_high hs (hc.2 x hx)

/-- Keys in order are cut into two leaves; the first key of the right one separates them. -/
theorem leaves_cut (hs : (K ++ k :: K').Pairwise (· < ·)) (hb : ∀ x ∈ K ++ k :: K', Between lo hi x)
    (hK : minKeys ≤ K.length ∧ K.length ≤ maxKeys)
    (hK' : minKeys ≤ (k :: K').length ∧ (k :: K').length ≤ maxKeys) (i j : ℕ) (x y : Option ℕ) :
    Separated (Child 0) lo hi [k] [(⟨i, K, x⟩ : Leaf), (⟨j, k :: K', y⟩ : Leaf)] := by
  obtain ⟨hsK, hsK', hlt⟩ := List.pairwise_append.mp hs
  have hk : Inside lo hi k := by
    refine ⟨fun a ha => ?_, (hb k (by simp)).2⟩
    cases K with
    | nil => exact absurd hK.1 (by decide)
    | cons z K =>
      exact lt_of_le_of_lt ((hb z (by simp)).1 a ha)
        (hlt z List.mem_cons_self k List.mem_cons_self)
  have hleft : ∀ z ∈ K, Between lo (some k) z := by
    intro z hz
    refine ⟨(hb z (List.mem_append_left _ hz)).1, fun b hb' => ?_⟩
    cases hb'
    exact hlt z hz k List.mem_cons_self
  have hright : ∀ z ∈ k :: K', Between (some k) hi z := by
    intro z hz
    refine ⟨fun a ha => ?_, (hb z (List.mem_append_right _ hz)).2⟩
    cases ha
    rcases List.mem_cons.mp hz with rfl | hz
    · exact le_rfl
    · exact le_of_lt ((List.pairwise_cons.mp hsK').1 z hz)
  exact .cons hk ⟨⟨hsK, hleft⟩, hK⟩ (.single ⟨⟨hsK', hright⟩, hK'⟩)

/-- A sequence is cut into two inner nodes; the key at the cut separates them. -/
theorem inners_cut {C C' : List (Node h)} (hg : Separated (Child h) lo hi (K ++ k :: K') (C ++ C'))
    (hC : C.length = K.length + 1) (hK : minKeys ≤ K.length ∧ K.length ≤ maxKeys)
    (hK' : minKeys ≤ K'.length ∧ K'.length ≤ maxKeys) :
    Separated (Child (h + 1)) lo hi [k] [(⟨K, C⟩ : Inner (Node h)), (⟨K', C'⟩ : Inner (Node h))] := by
  obtain ⟨hleft, hk, hright⟩ := hg.split hC
  exact .cons hk ⟨hleft, hK⟩ (.single ⟨hright, hK'⟩)

/-! ## 4. The pointers of the leaves

A pointer is the number of a leaf, so the chain is a matter of the list of numbers and pointers.  A
split puts a fresh leaf behind an old one (`Grows`); a merge drops a leaf and hands its pointer to
the one before it (`Merges`).  Neither looks at a key. -/

def links (L : List Leaf) : List (ℕ × Option ℕ) := L.map fun l => (l.id, l.next)

/-- Every leaf points to the one after it, the last one nowhere. -/
def Linked : List (ℕ × Option ℕ) → Prop
  | [] => True
  | [l] => l.2 = none
  | l :: l' :: L => l.2 = some l'.1 ∧ Linked (l' :: L)

/-- The leaves of a tree: linked in order, allocated before `fresh`, and no two the same. -/
structure Threaded (fresh : ℕ) (M : List (ℕ × Option ℕ)) : Prop where
  linked : Linked M
  nodup : (M.map Prod.fst).Nodup
  allocated : ∀ l ∈ M, l.1 < fresh

theorem links_append (L L' : List Leaf) : links (L ++ L') = links L ++ links L' := List.map_append

def Grows (fresh : ℕ) (M M' : List (ℕ × Option ℕ)) : Prop :=
  M' = M ∨ ∃ A i x B, M = A ++ (i, x) :: B ∧ M' = A ++ (i, some fresh) :: (fresh, x) :: B

def Merges (M M' : List (ℕ × Option ℕ)) : Prop :=
  ∃ A i y j x B, M = A ++ (i, y) :: (j, x) :: B ∧ M' = A ++ (i, x) :: B

/-- Leaves were merged, one pair after another. -/
abbrev Shrinks : List (ℕ × Option ℕ) → List (ℕ × Option ℕ) → Prop := Relation.ReflTransGen Merges

theorem Shrinks.of_eq {L L' : List Leaf} (h : L' = L) : Shrinks (links L) (links L') := by
  rw [h]

section Links

variable {fresh i : ℕ} {M M' B : List (ℕ × Option ℕ)} {x : Option ℕ}

theorem Grows.context (h : Grows fresh M M') (U V : List (ℕ × Option ℕ)) :
    Grows fresh (U ++ (M ++ V)) (U ++ (M' ++ V)) := by
  rcases h with rfl | ⟨A, i, x, B, rfl, rfl⟩
  · exact Or.inl rfl
  · exact Or.inr ⟨U ++ A, i, x, B ++ V, by simp, by simp⟩

theorem Merges.context (h : Merges M M') (U V : List (ℕ × Option ℕ)) :
    Merges (U ++ (M ++ V)) (U ++ (M' ++ V)) := by
  obtain ⟨A, i, y, j, x, B, rfl, rfl⟩ := h
  exact ⟨U ++ A, i, y, j, x, B ++ V, by simp, by simp⟩

theorem Shrinks.context (h : Shrinks M M') (U V : List (ℕ × Option ℕ)) :
    Shrinks (U ++ (M ++ V)) (U ++ (M' ++ V)) :=
  h.lift (fun M => U ++ (M ++ V)) fun _ _ hm => hm.context U V

theorem Linked.replace {y : Option ℕ} {B' : List (ℕ × Option ℕ)}
    (h : Linked ((i, x) :: B) → Linked ((i, y) :: B')) :
    ∀ A, Linked (A ++ (i, x) :: B) → Linked (A ++ (i, y) :: B')
  | [], hl => h hl
  | [_], hl => ⟨hl.1, h hl.2⟩
  | _ :: a' :: A, hl => ⟨hl.1, Linked.replace h (a' :: A) hl.2⟩

theorem Linked.cons_of (h : Linked ((i, x) :: B)) (j : ℕ) : Linked ((j, x) :: B) := by
  cases B with
  | nil => exact h
  | cons b B => exact h

theorem Grows.linked (h : Grows fresh M M') (hl : Linked M) : Linked M' := by
  rcases h with rfl | ⟨A, i, x, B, rfl, rfl⟩
  · exact hl
  · refine Linked.replace ?_ A hl
    intro h
    exact ⟨rfl, h.cons_of fresh⟩

theorem Grows.threaded (h : Grows fresh M M') (ht : Threaded fresh M) :
    Threaded (fresh + 1) M' := by
  refine ⟨h.linked ht.linked, ?_, ?_⟩
  · rcases h with rfl | ⟨A, i, x, B, rfl, rfl⟩
    · exact ht.nodup
    · have hnew : fresh ∉ (A ++ (i, x) :: B).map Prod.fst := by
        intro hm
        obtain ⟨l, hl, heq⟩ := List.mem_map.mp hm
        exact absurd (ht.allocated l hl) (by omega)
      have hperm : ((A ++ (i, some fresh) :: (fresh, x) :: B).map Prod.fst).Perm
          (fresh :: (A ++ (i, x) :: B).map Prod.fst) := by
        simp only [List.map_append, List.map_cons]
        rw [List.perm_iff_count]
        intro a
        simp only [List.count_append, List.count_cons]
        omega
      exact hperm.nodup_iff.mpr (List.nodup_cons.mpr ⟨hnew, ht.nodup⟩)
  · rcases h with rfl | ⟨A, i, x, B, rfl, rfl⟩
    · exact fun l hl => Nat.lt_succ_of_lt (ht.allocated l hl)
    · intro l hl
      rcases List.mem_append.mp hl with hl | hl
      · exact Nat.lt_succ_of_lt (ht.allocated l (by simp [hl]))
      · simp only [List.mem_cons] at hl
        rcases hl with rfl | rfl | hl
        · exact Nat.lt_succ_of_lt (ht.allocated (i, x) (by simp))
        · exact Nat.lt_succ_self _
        · exact Nat.lt_succ_of_lt (ht.allocated l (by simp [hl]))

theorem Merges.threaded (h : Merges M M') (ht : Threaded fresh M) : Threaded fresh M' := by
  obtain ⟨A, i, y, j, x, B, rfl, rfl⟩ := h
  refine ⟨?_, ?_, fun l hl => ?_⟩
  · refine Linked.replace ?_ A ht.linked
    intro h
    exact h.2.cons_of i
  · have hsub : ((A ++ (i, x) :: B).map Prod.fst).Sublist
        ((A ++ (i, y) :: (j, x) :: B).map Prod.fst) := by
      simp only [List.map_append, List.map_cons]
      exact (((List.Sublist.refl _).cons j).cons_cons i).append_left _
    exact hsub.nodup ht.nodup
  · rcases List.mem_append.mp hl with hl | hl
    · exact ht.allocated l (by simp [hl])
    · rcases List.mem_cons.mp hl with rfl | hl
      · exact ht.allocated (i, y) (by simp)
      · exact ht.allocated l (by simp [hl])

theorem Shrinks.threaded (h : Shrinks M M') (ht : Threaded fresh M) : Threaded fresh M' := by
  induction h with
  | refl => exact ht
  | tail _ hm ih => exact hm.threaded ih

end Links

end Cachey.BTree
