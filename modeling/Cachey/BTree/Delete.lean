/-
# Deletion keeps the shape

A deletion takes a pair out of one leaf; on the way back up, a child that is left with too few keys
gets one from a neighbour or is merged with it.

* `Repaired`: what a repair does to two neighbours.  The pairs stay as they are, in order, and
  either no pointer changes or two leaves become one.
* `borrowFromLeft_spec`, `borrowFromRight_spec`, `mergeChildren_spec`: each repair, for leaves and
  for inner nodes.
* `fixChild_spec`: one of them applies.
* `delete_spec`.
-/
import Cachey.BTree.Insert

namespace Cachey.BTree

variable {h : ℕ} {target : Expiration} {lo hi : Option Expiration}

/-! ## 1. Repairs -/

/-- Two neighbours `l`, `c` have become the nodes `C`, with the separators `K` between them. -/
structure Repaired (lo hi : Option Expiration) (l c : Node h) (K : List Expiration)
    (C : List (Node h)) : Prop where
  good : Separated (Child h) lo hi K C
  entries : C.flatMap Node.entries = l.entries ++ c.entries
  links : Shrinks (links (l.leaves ++ c.leaves)) (links (C.flatMap Node.leaves))

theorem setKey_cut (A B : List Expiration) (k k' : Expiration) :
    setKey (A ++ k :: B) A.length k' = some (A ++ k' :: B) := by
  unfold setKey
  rw [if_pos (by simp), set_cut]

/-! ### What the repairs compute -/

theorem borrowFromLeft_leaf (idx : ℕ) (n : Inner (Node 0)) :
    borrowFromLeft idx n = (n.children[idx]?).bind fun child =>
      (n.children[idx - 1]?).bind fun left =>
        (Leaf.keys left).getLast?.bind fun moved =>
          (setKey n.keys (idx - 1) moved).bind fun keys =>
            some ⟨keys, (n.children.set (idx - 1)
              (⟨Leaf.id left, (Leaf.keys left).dropLast, Leaf.next left⟩ : Leaf)).set idx
              (⟨Leaf.id child, moved :: Leaf.keys child, Leaf.next child⟩ : Leaf)⟩ := rfl

theorem borrowFromLeft_inner (idx : ℕ) (n : Inner (Node (h + 1))) :
    borrowFromLeft idx n = (n.children[idx]?).bind fun child =>
      (n.children[idx - 1]?).bind fun left =>
        (Inner.keys left).getLast?.bind fun lastKey =>
          (Inner.children left).getLast?.bind fun movedChild =>
            (n.keys[idx - 1]?).bind fun key =>
              some ⟨n.keys.set (idx - 1) lastKey, (n.children.set (idx - 1)
                (⟨(Inner.keys left).dropLast, (Inner.children left).dropLast⟩ :
                  Inner (Node h))).set idx
                (⟨key :: Inner.keys child, movedChild :: Inner.children child⟩ :
                  Inner (Node h))⟩ := rfl

theorem borrowFromRight_leaf (idx : ℕ) (n : Inner (Node 0)) :
    borrowFromRight idx n = (n.children[idx]?).bind fun child =>
      (n.children[idx + 1]?).bind fun right =>
        (Leaf.keys right).head?.bind fun moved =>
          (Leaf.keys right).tail.head?.bind fun first =>
            (setKey n.keys idx first).bind fun keys =>
              some ⟨keys, (n.children.set idx
                (⟨Leaf.id child, Leaf.keys child ++ [moved], Leaf.next child⟩ : Leaf)).set (idx + 1)
                (⟨Leaf.id right, (Leaf.keys right).tail, Leaf.next right⟩ : Leaf)⟩ := rfl

theorem borrowFromRight_inner (idx : ℕ) (n : Inner (Node (h + 1))) :
    borrowFromRight idx n = (n.children[idx]?).bind fun child =>
      (n.children[idx + 1]?).bind fun right =>
        (Inner.children right).head?.bind fun movedChild =>
          (n.keys[idx]?).bind fun key =>
            (Inner.keys right).head?.bind fun first =>
              some ⟨n.keys.set idx first, (n.children.set idx
                (⟨Inner.keys child ++ [key], Inner.children child ++ [movedChild]⟩ :
                  Inner (Node h))).set (idx + 1)
                (⟨(Inner.keys right).tail, (Inner.children right).tail⟩ : Inner (Node h))⟩ := rfl

theorem mergeChildren_eq (idx : ℕ) (n : Inner (Node h)) :
    mergeChildren idx n = (n.children[idx]?).bind fun left =>
      (n.children[idx + 1]?).bind fun right =>
        (n.keys[idx]?).bind fun key =>
          some ⟨n.keys.eraseIdx idx,
            (n.children.set idx (joined key left right)).eraseIdx (idx + 1)⟩ := rfl

section Pairs

variable {A B : List Expiration} {U V : List (Node h)} {s : Expiration} {l c : Node h}

theorem exists_last {β : Type} {l : List β} (hl : 0 < l.length) : ∃ L m, l = L ++ [m] := by
  rcases List.eq_nil_or_concat l with rfl | ⟨L, m, rfl⟩
  · simp at hl
  · exact ⟨L, m, List.concat_eq_append⟩

theorem neighbours (hU : U.length = A.length) :
    (U ++ l :: c :: V)[A.length]? = some l ∧ (U ++ l :: c :: V)[A.length + 1]? = some c ∧
      ∀ l' c', ((U ++ l :: c :: V).set A.length l').set (A.length + 1) c' = U ++ l' :: c' :: V := by
  rw [← hU]
  exact ⟨get_cut _ _ _, get_next _ _ _ _, fun l' c' => by rw [set_cut, set_next]⟩

theorem Repaired.of_children {l c : Node (h + 1)} {K : List Expiration} {C : List (Node (h + 1))}
    (hg : Separated (Child (h + 1)) lo hi K C)
    (hsame : C.flatMap Inner.children = Inner.children l ++ Inner.children c) :
    Repaired lo hi l c K C where
  good := hg
  entries := by
    rw [funext entries_inner, ← List.flatMap_assoc, hsame, List.flatMap_append]
  links := by
    refine Shrinks.of_eq ?_
    change C.flatMap (fun n => (Inner.children n).flatMap Node.leaves) =
      (Inner.children l).flatMap Node.leaves ++ (Inner.children c).flatMap Node.leaves
    rw [← List.flatMap_assoc, hsame, List.flatMap_append]

theorem borrowFromLeft_spec (hU : U.length = A.length) (hl : Good h lo (some s) l)
    (hs : Inside lo hi s) (hc : Good h (some s) hi c) (hlend : minKeys < l.keys.length)
    (hmax : l.keys.length ≤ maxKeys) (hweak : c.keys.length + 1 = minKeys) :
    ∃ m l' c', borrowFromLeft (A.length + 1)
        (⟨A ++ s :: B, U ++ l :: c :: V⟩ : Inner (Node h)) =
        some ⟨A ++ m :: B, U ++ l' :: c' :: V⟩ ∧ Repaired lo hi l c [m] [l', c'] := by
  obtain ⟨hleft, hchild, hset⟩ := neighbours (V := V) (l := l) (c := c) hU
  obtain ⟨L, m, hL⟩ := exists_last (Nat.lt_of_le_of_lt (Nat.zero_le _) hlend)
  rw [hL, List.length_append, List.length_singleton] at hlend hmax
  cases h with
  | zero =>
    obtain ⟨hsort, hb⟩ := leaves_join hl hs hc
    change Leaf.keys l = L ++ [m] at hL
    change (Leaf.keys c).length + 1 = minKeys at hweak
    rw [hL, List.append_assoc, List.singleton_append] at hsort hb
    refine ⟨m, (⟨Leaf.id l, L, Leaf.next l⟩ : Leaf),
      (⟨Leaf.id c, m :: Leaf.keys c, Leaf.next c⟩ : Leaf), ?_, ?_, ?_, ?_⟩
    · rw [borrowFromLeft_leaf]
      simp only [Nat.add_sub_cancel, hchild, hleft, Option.bind_some, hL, List.getLast?_concat,
        List.dropLast_concat, setKey_cut, hset]
    · refine leaves_cut hsort hb ?_ ?_ _ _ _ _
      · omega
      · rw [List.length_cons, hweak]
        decide
    · change L ++ [] ++ (m :: Leaf.keys c ++ [] ++ []) = Leaf.keys l ++ [] ++ (Leaf.keys c ++ [])
      rw [hL]
      simp
    · exact .refl
  | succ h =>
    have hjoin : Separated (Child h) lo hi (Inner.keys l ++ s :: Inner.keys c)
      (Inner.children l ++ Inner.children c) := Separated.append hl hs hc
    have hlen : (Inner.children l).length = (Inner.keys l).length + 1 := Separated.length hl
    obtain ⟨D, d, hD⟩ := exists_last (l := Inner.children l) (by omega)
    change Inner.keys l = L ++ [m] at hL
    change (Inner.keys c).length + 1 = minKeys at hweak
    rw [hL, hD, List.append_assoc, List.append_assoc, List.singleton_append,
      List.singleton_append] at hjoin
    rw [hL, hD, List.length_append, List.length_append] at hlen
    simp only [List.length_singleton] at hlen
    refine ⟨m, (⟨L, D⟩ : Inner (Node h)),
      (⟨s :: Inner.keys c, d :: Inner.children c⟩ : Inner (Node h)), ?_, .of_children ?_ ?_⟩
    · rw [borrowFromLeft_inner]
      simp only [Nat.add_sub_cancel, hchild, hleft, Option.bind_some, hL, hD, List.getLast?_concat,
        List.dropLast_concat, get_cut, set_cut, hset]
    · refine inners_cut hjoin (by omega) ?_ ?_
      · omega
      · rw [List.length_cons, hweak]
        decide
    · simp [hD]

theorem borrowFromRight_spec (hU : U.length = A.length) (hl : Good h lo (some s) l)
    (hs : Inside lo hi s) (hc : Good h (some s) hi c) (hlend : minKeys < c.keys.length)
    (hmax : c.keys.length ≤ maxKeys) (hweak : l.keys.length + 1 = minKeys) :
    ∃ m l' c', borrowFromRight A.length
        (⟨A ++ s :: B, U ++ l :: c :: V⟩ : Inner (Node h)) =
        some ⟨A ++ m :: B, U ++ l' :: c' :: V⟩ ∧ Repaired lo hi l c [m] [l', c'] := by
  obtain ⟨hchild, hright, hset⟩ := neighbours (V := V) (l := l) (c := c) hU
  cases h with
  | zero =>
    obtain ⟨hsort, hb⟩ := leaves_join hl hs hc
    change minKeys < (Leaf.keys c).length at hlend
    change (Leaf.keys c).length ≤ maxKeys at hmax
    change (Leaf.keys l).length + 1 = minKeys at hweak
    obtain ⟨m, R₀, hm⟩ := List.exists_cons_of_length_pos (Nat.lt_of_le_of_lt (Nat.zero_le _) hlend)
    obtain ⟨f, R, rfl⟩ : ∃ f R, R₀ = f :: R := List.exists_cons_of_length_pos (by
      rw [hm, List.length_cons] at hlend
      exact Nat.lt_of_lt_of_le (by decide : 0 < minKeys) (Nat.le_of_lt_succ hlend))
    rw [hm, ← List.singleton_append, ← List.append_assoc] at hsort hb
    rw [hm, List.length_cons] at hlend hmax
    refine ⟨f, (⟨Leaf.id l, Leaf.keys l ++ [m], Leaf.next l⟩ : Leaf),
      (⟨Leaf.id c, f :: R, Leaf.next c⟩ : Leaf), ?_, ?_, ?_, ?_⟩
    · rw [borrowFromRight_leaf]
      simp only [hchild, hright, Option.bind_some, hm, List.head?_cons, List.tail_cons,
        setKey_cut, hset]
    · refine leaves_cut hsort hb ?_ ?_ _ _ _ _
      · rw [List.length_append, List.length_singleton, hweak]
        decide
      · omega
    · change Leaf.keys l ++ [m] ++ [] ++ (f :: R ++ [] ++ []) =
        Leaf.keys l ++ [] ++ (Leaf.keys c ++ [])
      rw [hm]
      simp
    · exact .refl
  | succ h =>
    have hjoin : Separated (Child h) lo hi (Inner.keys l ++ s :: Inner.keys c)
      (Inner.children l ++ Inner.children c) := Separated.append hl hs hc
    have hlenl : (Inner.children l).length = (Inner.keys l).length + 1 := Separated.length hl
    have hlenc : (Inner.children c).length = (Inner.keys c).length + 1 := Separated.length hc
    change minKeys < (Inner.keys c).length at hlend
    change (Inner.keys c).length ≤ maxKeys at hmax
    change (Inner.keys l).length + 1 = minKeys at hweak
    obtain ⟨f, R, hf⟩ := List.exists_cons_of_length_pos (Nat.lt_of_le_of_lt (Nat.zero_le _) hlend)
    obtain ⟨d, D, hd⟩ := List.exists_cons_of_length_pos (l := Inner.children c) (by omega)
    have hjoin' : Separated (Child h) lo hi (Inner.keys l ++ [s] ++ f :: R)
        (Inner.children l ++ [d] ++ D) := by
      rw [hf, hd] at hjoin
      simpa using hjoin
    rw [hf, List.length_cons] at hlend hmax
    refine ⟨f, (⟨Inner.keys l ++ [s], Inner.children l ++ [d]⟩ : Inner (Node h)),
      (⟨R, D⟩ : Inner (Node h)), ?_, .of_children ?_ ?_⟩
    · rw [borrowFromRight_inner]
      simp only [hchild, hright, Option.bind_some, hf, hd, List.head?_cons, List.tail_cons,
        get_cut, set_cut, hset]
    · refine inners_cut hjoin' ?_ ?_ ?_
      · simp [hlenl]
      · rw [List.length_append, List.length_singleton, hweak]
        decide
      · omega
    · simp [hd]

theorem mergeChildren_spec (hU : U.length = A.length) (hl : Good h lo (some s) l)
    (hs : Inside lo hi s) (hc : Good h (some s) hi c)
    (hsize : l.keys.length + c.keys.length + 1 = minKeys + minKeys) :
    ∃ m, mergeChildren A.length (⟨A ++ s :: B, U ++ l :: c :: V⟩ : Inner (Node h)) =
        some ⟨A ++ B, U ++ m :: V⟩ ∧ Repaired lo hi l c [] [m] := by
  obtain ⟨hleft, hright, -⟩ := neighbours (V := V) (l := l) (c := c) hU
  have hkids : ∀ m, ((U ++ l :: c :: V).set A.length m).eraseIdx (A.length + 1) = U ++ m :: V := by
    intro m
    rw [← hU, set_cut, erase_next]
  refine ⟨joined s l c, ?_, ?_⟩
  · rw [mergeChildren_eq]
    simp only [hleft, hright, Option.bind_some, get_cut, erase_cut, hkids]
  cases h with
  | zero =>
    obtain ⟨hsort, hb⟩ := leaves_join hl hs hc
    change (Leaf.keys l).length + (Leaf.keys c).length + 1 = minKeys + minKeys at hsize
    refine ⟨.single ⟨⟨hsort, hb⟩, ?_⟩, ?_, ?_⟩
    · change minKeys ≤ (Leaf.keys l ++ Leaf.keys c).length ∧
        (Leaf.keys l ++ Leaf.keys c).length ≤ maxKeys
      rw [List.length_append]
      have : minKeys = 3 := rfl
      have : maxKeys = 7 := rfl
      omega
    · change Leaf.keys l ++ Leaf.keys c ++ [] ++ [] = Leaf.keys l ++ [] ++ (Leaf.keys c ++ [])
      simp
    · exact .single ⟨[], Leaf.id l, Leaf.next l, Leaf.id c, Leaf.next c, [], rfl, rfl⟩
  | succ h =>
    have hjoin : Separated (Child h) lo hi (Inner.keys l ++ s :: Inner.keys c)
      (Inner.children l ++ Inner.children c) := Separated.append hl hs hc
    change (Inner.keys l).length + (Inner.keys c).length + 1 = minKeys + minKeys at hsize
    have hkeys : Inner.keys l ++ [s] ++ Inner.keys c = Inner.keys l ++ s :: Inner.keys c := by simp
    refine .of_children (.single ⟨?_, ?_⟩) (by simp [joined])
    · change Separated (Child h) lo hi (Inner.keys l ++ [s] ++ Inner.keys c) _
      rw [hkeys]
      exact hjoin
    · change minKeys ≤ (Inner.keys l ++ [s] ++ Inner.keys c).length ∧
        (Inner.keys l ++ [s] ++ Inner.keys c).length ≤ maxKeys
      rw [hkeys, List.length_append, List.length_cons]
      have : minKeys = 3 := rfl
      have : maxKeys = 7 := rfl
      omega

end Pairs

/-! ## 2. Fixing a child

`fixChild` tries the left neighbour, then the right one, and merges if neither has a key to spare.  A
merge fits because both sides are then at the minimum, one of them a key short of it.  There is
always a neighbour: an inner node has a key, hence two children. -/

/-- An inner node has been put in order again: at the cost of at most one key, with the same pairs
below it. -/
structure Fixed (lo hi : Option Expiration) (n n' : Inner (Node h)) : Prop where
  good : Separated (Child h) lo hi n'.keys n'.children
  atMostOne : n.keys.length ≤ n'.keys.length + 1
  noneNew : n'.keys.length ≤ n.keys.length
  entries : n'.children.flatMap Node.entries = n.children.flatMap Node.entries
  links : Shrinks (links (n.children.flatMap Node.leaves))
    (BTree.links (n'.children.flatMap Node.leaves))

section Fixing

variable {A B : List Expiration} {U V : List (Node h)} {s : Expiration} {l c c' : Node h}

theorem Repaired.fixed {lo' hi' : Option Expiration} {K : List Expiration} {C : List (Node h)}
    (hr : Repaired lo' hi' l c K C) (hK : K.length ≤ 1)
    (hput : ∀ K C, Separated (Child h) lo' hi' K C →
      Separated (Child h) lo hi (A ++ (K ++ B)) (U ++ (C ++ V))) :
    Fixed lo hi ⟨A ++ s :: B, U ++ l :: c :: V⟩ ⟨A ++ (K ++ B), U ++ (C ++ V)⟩ where
  good := hput K C hr.good
  atMostOne := by
    simp only [List.length_append, List.length_cons]
    omega
  noneNew := by
    simp only [List.length_append, List.length_cons]
    omega
  entries := by
    simp only [List.flatMap_append, List.flatMap_cons, hr.entries, List.append_assoc]
  links := by
    have hsame : (U ++ l :: c :: V).flatMap Node.leaves =
        U.flatMap Node.leaves ++ ((l.leaves ++ c.leaves) ++ V.flatMap Node.leaves) := by
      simp [List.flatMap_append]
    rw [hsame, List.flatMap_append, List.flatMap_append]
    simp only [links_append _ (_ ++ _), links_append _ (V.flatMap _)]
    exact hr.links.context _ _

theorem lends_iff {n : Inner (Node h)} {idx : ℕ} {d : Node h} (hd : n.children[idx]? = some d) :
    lends n idx = true ↔ minKeys < d.keys.length := by
  simp [lends, hd, Node.canLend]

/-- What a deletion has made of the child at the cut: it may lack a key, one at most.  It is good
between ANY bounds the old child was good between, since the child is looked at once under the
bounds of the search and once under those of a repair. -/
structure Weakened (target : Expiration) (c c' : Node h) : Prop where
  good : ∀ lo hi, Child h lo hi c → Between lo hi target → Good h lo hi c'
  atMostOne : c.keys.length ≤ c'.keys.length + 1
  noneNew : c'.keys.length ≤ c.keys.length

theorem fixChild_left (hg : Separated (Child h) lo hi (A ++ s :: B) (U ++ l :: c :: V))
    (hU : U.length = A.length) (ht : Between lo hi target) (hs : s ≤ target)
    (hB : ∀ b ∈ B, target < b) (hc : Weakened target c c') (hweak : c'.keys.length < minKeys) :
    (minKeys < l.keys.length → ∃ n', borrowFromLeft (A.length + 1)
      (⟨A ++ s :: B, U ++ l :: c' :: V⟩ : Inner (Node h)) = some n' ∧
        Fixed lo hi ⟨A ++ s :: B, U ++ l :: c' :: V⟩ n') ∧
    (¬ minKeys < l.keys.length → ∃ n', mergeChildren A.length
      (⟨A ++ s :: B, U ++ l :: c' :: V⟩ : Inner (Node h)) = some n' ∧
        Fixed lo hi ⟨A ++ s :: B, U ++ l :: c' :: V⟩ n') := by
  obtain ⟨lo', hi', hin, hlo, hhi, hput⟩ :=
    Separated.window (K := [s]) (C := [l, c]) (B := B) (V := V) hg hU rfl
  cases hin with
  | cons hins hl htail =>
    cases htail with
    | single hcc =>
      have hbetween : Between (some s) hi' target := by
        refine ⟨fun a ha => ?_, fun b hb => (hhi b hb).elim (ht.2 b) (hB b)⟩
        cases ha
        exact hs
      have hgood := hc.good _ _ hcc hbetween
      have hsize := hc.atMostOne
      have hfull := hcc.2.1
      constructor
      · intro hlend
        obtain ⟨m, l', c'', heq, hr⟩ := borrowFromLeft_spec (B := B) (V := V) hU hl.1 hins hgood
          hlend hl.2.2 (by omega)
        exact ⟨_, heq, hr.fixed le_rfl hput⟩
      · intro hno
        have hlfull := hl.2.1
        obtain ⟨m, heq, hr⟩ := mergeChildren_spec (B := B) (V := V) hU hl.1 hins hgood (by omega)
        exact ⟨_, heq, hr.fixed (Nat.zero_le _) hput⟩

theorem fixChild_right {r : Node h}
    (hg : Separated (Child h) lo hi (A ++ s :: B) (U ++ c :: r :: V)) (hU : U.length = A.length)
    (ht : Between lo hi target) (hA : ∀ a ∈ A, a ≤ target) (hs : target < s)
    (hc : Weakened target c c') (hweak : c'.keys.length < minKeys) :
    (minKeys < r.keys.length → ∃ n', borrowFromRight A.length
      (⟨A ++ s :: B, U ++ c' :: r :: V⟩ : Inner (Node h)) = some n' ∧
        Fixed lo hi ⟨A ++ s :: B, U ++ c' :: r :: V⟩ n') ∧
    (¬ minKeys < r.keys.length → ∃ n', mergeChildren A.length
      (⟨A ++ s :: B, U ++ c' :: r :: V⟩ : Inner (Node h)) = some n' ∧
        Fixed lo hi ⟨A ++ s :: B, U ++ c' :: r :: V⟩ n') := by
  obtain ⟨lo', hi', hin, hlo, hhi, hput⟩ :=
    Separated.window (K := [s]) (C := [c, r]) (B := B) (V := V) hg hU rfl
  cases hin with
  | cons hins hcc htail =>
    cases htail with
    | single hr =>
      have hbetween : Between lo' (some s) target := by
        refine ⟨fun a ha => (hlo a ha).elim (ht.1 a) (hA a), fun b hb => ?_⟩
        cases hb
        exact hs
      have hgood := hc.good _ _ hcc hbetween
      have hsize := hc.atMostOne
      have hfull := hcc.2.1
      constructor
      · intro hlend
        obtain ⟨m, l', c'', heq, hrep⟩ := borrowFromRight_spec (B := B) (V := V) hU hgood hins hr.1
          hlend hr.2.2 (by omega)
        exact ⟨_, heq, hrep.fixed le_rfl hput⟩
      · intro hno
        have hrfull := hr.2.1
        obtain ⟨m, heq, hrep⟩ := mergeChildren_spec (B := B) (V := V) hU hgood hins hr.1 (by omega)
        exact ⟨_, heq, hrep.fixed (Nat.zero_le _) hput⟩

theorem fixChild_eq (idx : ℕ) (n : Inner (Node h)) :
    fixChild idx n = (n.children[idx]?).bind fun child =>
      if ¬ child.underflow then some n
      else if 0 < idx ∧ lends n (idx - 1) then borrowFromLeft idx n
      else if idx < n.children.length - 1 ∧ lends n (idx + 1) then borrowFromRight idx n
      else if 0 < idx then mergeChildren (idx - 1) n
      else mergeChildren idx n := rfl

/-- **Whatever a deletion left of a child, it is fixed.** -/
theorem fixChild_spec (hg : Separated (Child h) lo hi (A ++ B) (U ++ c :: V))
    (hU : U.length = A.length) (ht : Between lo hi target) (hA : ∀ a ∈ A, a ≤ target)
    (hB : ∀ b ∈ B, target < b) (hne : 0 < (A ++ B).length) (hc : Weakened target c c') :
    ∃ n', fixChild A.length (⟨A ++ B, U ++ c' :: V⟩ : Inner (Node h)) = some n' ∧
      Fixed lo hi ⟨A ++ B, U ++ c' :: V⟩ n' := by
  have hget : (U ++ c' :: V)[A.length]? = some c' := by rw [← hU, get_cut]
  have hlen := hg.length
  simp only [List.length_append, List.length_cons] at hlen
  rw [fixChild_eq, hget, Option.bind_some]
  by_cases hfull : minKeys ≤ c'.keys.length
  · -- nothing to do
    rw [if_pos (by simpa [Node.underflow] using hfull)]
    obtain ⟨lo', hi', hin, hlo, hhi, hput⟩ :=
      Separated.window (K := []) (C := [c]) (B := B) (V := V) hg hU rfl
    cases hin with
    | single hcc =>
      have hbetween : Between lo' hi' target :=
        ⟨fun a ha => (hlo a ha).elim (ht.1 a) (hA a), fun b hb => (hhi b hb).elim (ht.2 b) (hB b)⟩
      have hgood := hput [] [c'] (.single ⟨hc.good _ _ hcc hbetween, hfull,
        le_trans hc.noneNew hcc.2.2⟩)
      exact ⟨_, rfl, hgood, Nat.le_succ _, le_rfl, rfl, .refl⟩
  · have hweak : c'.keys.length < minKeys := not_le.mp hfull
    rw [if_neg (by simpa [Node.underflow] using hweak)]
    -- a neighbour on the right that lends
    have hright : (A.length < (U ++ c' :: V).length - 1 ∧
        lends (⟨A ++ B, U ++ c' :: V⟩ : Inner (Node h)) (A.length + 1) = true) →
        ∃ n', borrowFromRight A.length (⟨A ++ B, U ++ c' :: V⟩ : Inner (Node h)) = some n' ∧
          Fixed lo hi ⟨A ++ B, U ++ c' :: V⟩ n' := by
      rintro ⟨hin, hlend⟩
      simp only [List.length_append, List.length_cons] at hin
      obtain ⟨s, B, rfl⟩ : ∃ s B', B = s :: B' := List.exists_cons_of_length_pos (by omega)
      obtain ⟨r, V, rfl⟩ : ∃ r V', V = r :: V' := List.exists_cons_of_length_pos (by omega)
      have hr : (U ++ c' :: r :: V)[A.length + 1]? = some r := by rw [← hU, get_next]
      exact (fixChild_right hg hU ht hA (hB s List.mem_cons_self) hc hweak).1
        ((lends_iff hr).mp hlend)
    rcases A.eq_nil_or_concat with rfl | ⟨A, s, rfl⟩
    · -- the first child: its neighbour is on the right
      obtain rfl : U = [] := List.eq_nil_of_length_eq_zero hU
      rw [if_neg (by simp)]
      split
      next hlend => exact hright hlend
      next hno =>
        rw [if_neg (by simp)]
        obtain ⟨s, B, rfl⟩ : ∃ s B', B = s :: B' := List.exists_cons_of_length_pos hne
        obtain ⟨r, V, rfl⟩ : ∃ r V', V = r :: V' := List.exists_cons_of_length_pos (by
          simp only [List.length_cons] at hlen
          omega)
        refine (fixChild_right (A := []) (U := []) hg rfl ht hA (hB s List.mem_cons_self) hc
          hweak).2 fun hlend => hno ⟨by simp, (lends_iff (d := r) rfl).mpr hlend⟩
    · -- another one: it has a left neighbour
      rw [List.concat_eq_append] at hg hU hA hright hlen ⊢
      obtain ⟨U, l, rfl⟩ := exists_last (l := U) (by simp [hU])
      simp only [List.length_append, List.length_singleton, Nat.add_right_cancel_iff] at hU
      simp only [List.length_append, List.length_singleton] at hright ⊢
      rw [List.append_assoc, List.singleton_append, List.append_assoc,
        List.singleton_append] at hg hright ⊢
      have hl : (U ++ l :: c' :: V)[A.length]? = some l := by rw [← hU, get_cut]
      have hboth := fixChild_left (B := B) hg hU ht (hA s (by simp)) hB hc hweak
      rw [Nat.add_sub_cancel]
      split
      next hlend => exact hboth.1 ((lends_iff hl).mp hlend.2)
      next hno =>
        split
        next hlend => exact hright (by simpa using hlend)
        next =>
          rw [if_pos (Nat.succ_pos _)]
          exact hboth.2 fun hlend => hno ⟨Nat.succ_pos _, (lends_iff hl).mpr hlend⟩

end Fixing

/-! ## 3. Deletion

The induction is on the height.  A node on the way up may have lost a key itself, to a merge below
it; that is what `atMostOne` hands to the next `fixChild`. -/

/-- The leaves give up the target, if they have it. -/
structure Removes (target : Expiration) (b : Bool) (L L' : List Leaf) : Prop where
  mem : ∀ x, x ∈ L'.flatMap Leaf.keys ↔ x ∈ L.flatMap Leaf.keys ∧ x ≠ target
  found : b = true ↔ target ∈ L.flatMap Leaf.keys
  links : Shrinks (links L) (links L')

/-- What a deletion leaves of a node. -/
structure Deleted (target : Expiration) (lo hi : Option Expiration) (n : Node h)
    (r : Node h × Bool) : Prop where
  good : Good h lo hi r.1
  atMostOne : n.keys.length ≤ r.1.keys.length + 1
  noneNew : r.1.keys.length ≤ n.keys.length
  same : r.2 = false → r.1 = n
  removes : Removes target r.2 n.leaves r.1.leaves

theorem deleteLeaf_spec {l : Node 0} (hg : Good 0 lo hi l) :
    Deleted target lo hi l (deleteLeaf target l) := by
  obtain ⟨i, keys, next⟩ : Leaf := l
  obtain ⟨hs, hb⟩ := hg
  obtain ⟨A, B, rfl, hidx, hA, hB⟩ := lowerBound_spec hs target
  have hfound := found_iff hA hB hs
  unfold deleteLeaf
  rw [hidx]
  by_cases hin : target ∈ A ++ B
  · rw [if_pos (hfound.mpr hin)]
    have hnot : target ∉ A := fun h => lt_irrefl _ (hA target h)
    obtain ⟨b, B, rfl⟩ : ∃ b B', B = b :: B' := List.exists_cons_of_ne_nil (by
      rintro rfl
      exact hnot (by simpa using hin))
    obtain rfl : b = target := by
      have := hfound.mpr hin
      rw [found, get_cut, equal_iff] at this
      exact this
    obtain ⟨hsA, hsB, hlt⟩ := List.pairwise_append.mp hs
    obtain ⟨hbB, hsB⟩ := List.pairwise_cons.mp hsB
    rw [erase_cut]
    refine ⟨⟨?_, fun x hx => hb x ?_⟩, ?_, ?_, fun h => (by cases h), ?_, ?_, .refl⟩
    · exact List.pairwise_append.mpr ⟨hsA, hsB, fun x hx y hy => hlt x hx y (by simp [hy])⟩
    · rw [List.mem_append, List.mem_cons]
      exact (List.mem_append.mp hx).imp id Or.inr
    · change (A ++ b :: B).length ≤ (A ++ B).length + 1
      simp only [List.length_append, List.length_cons]
      omega
    · change (A ++ B).length ≤ (A ++ b :: B).length
      simp
    · intro x
      change x ∈ A ++ B ++ [] ↔ x ∈ A ++ b :: B ++ [] ∧ x ≠ b
      simp only [List.append_nil, List.mem_append, List.mem_cons]
      constructor
      · rintro (hx | hx)
        · exact ⟨Or.inl hx, ne_of_lt (hA x hx)⟩
        · exact ⟨Or.inr (Or.inr hx), ne_of_gt (hbB x hx)⟩
      · rintro ⟨hx | rfl | hx, hne⟩
        · exact Or.inl hx
        · exact absurd rfl hne
        · exact Or.inr hx
    · change true = true ↔ b ∈ A ++ b :: B ++ []
      simp
  · rw [if_neg (fun h => hin (hfound.mp h))]
    refine ⟨⟨hs, hb⟩, Nat.le_succ _, le_rfl, fun _ => rfl, fun x => ?_, ?_, .refl⟩
    · change x ∈ A ++ B ++ [] ↔ x ∈ A ++ B ++ [] ∧ x ≠ target
      rw [List.append_nil]
      exact ⟨fun hx => ⟨hx, fun h => hin (h ▸ hx)⟩, And.left⟩
    · change false = true ↔ target ∈ A ++ B ++ []
      rw [List.append_nil]
      exact ⟨fun h => (by cases h), fun h => absurd h hin⟩

theorem delete_inner (n : Inner (Node h)) :
    Node.delete (h := h + 1) target n =
      (n.children[childIndex n.keys target]?).bind fun child =>
        (child.delete target).bind fun r =>
          if r.2 then
            (fixChild (childIndex n.keys target)
              { n with children := n.children.set (childIndex n.keys target) r.1 }).bind
              fun n => some (n, true)
          else some ({ n with children := n.children.set (childIndex n.keys target) r.1 }, false) :=
  rfl

theorem mem_cut {U V : List (Node h)} {c : Node h} {x : Expiration} :
    x ∈ ((U ++ c :: V).flatMap Node.leaves).flatMap Leaf.keys ↔
      x ∈ U.flatMap Node.entries ∨ x ∈ c.entries ∨ x ∈ V.flatMap Node.entries := by
  rw [List.flatMap_assoc]
  simp only [List.flatMap_append, List.flatMap_cons, List.mem_append]
  rfl

theorem delete_spec : ∀ {h : ℕ} {lo hi : Option Expiration} {n : Node h}, Good h lo hi n →
    Between lo hi target → (0 < h → 0 < n.keys.length) →
    ∃ r, n.delete target = some r ∧ Deleted target lo hi n r
  | 0, _, _, _, hg, _, _ => ⟨_, rfl, deleteLeaf_spec hg⟩
  | h + 1, lo, hi, n, hg, ht, hne => by
    obtain ⟨keys, children⟩ : Inner (Node h) := n
    have hkeys : 0 < keys.length := hne (Nat.succ_pos h)
    obtain ⟨A, B, U, c, V, rfl, rfl, hU, hidx, hA, hB, hbelow, habove, lo', hi', hc, ht', hput⟩ :=
      descend hg ht
    have hpos : ∀ {lo hi : Option Expiration}, Child h lo hi c → 0 < h → 0 < c.keys.length :=
      fun hc _ => lt_of_lt_of_le (by decide) hc.2.1
    obtain ⟨r, heq, hr⟩ := delete_spec hc.1 ht' (hpos hc)
    have hget : (U ++ c :: V)[A.length]? = some c := by rw [← hU, get_cut]
    have hset : (U ++ c :: V).set A.length r.1 = U ++ r.1 :: V := by rw [← hU, set_cut]
    -- the target can only be in the child at the cut
    have hU' : target ∉ U.flatMap Node.entries := fun h => lt_irrefl _ (hbelow _ h)
    have hV' : target ∉ V.flatMap Node.entries := fun h => lt_irrefl _ (habove _ h)
    have hmem : ∀ x, x ∈ ((U ++ r.1 :: V).flatMap Node.leaves).flatMap Leaf.keys ↔
        x ∈ ((U ++ c :: V).flatMap Node.leaves).flatMap Leaf.keys ∧ x ≠ target := by
      intro x
      have hx := hr.removes.mem x
      rw [mem_cut, mem_cut]
      change x ∈ r.1.entries ↔ x ∈ c.entries ∧ x ≠ target at hx
      rw [hx]
      constructor
      · rintro (h | ⟨h, hne⟩ | h)
        · exact ⟨Or.inl h, fun e => hU' (e ▸ h)⟩
        · exact ⟨Or.inr (Or.inl h), hne⟩
        · exact ⟨Or.inr (Or.inr h), fun e => hV' (e ▸ h)⟩
      · rintro ⟨h | h | h, hne⟩
        · exact Or.inl h
        · exact Or.inr (Or.inl ⟨h, hne⟩)
        · exact Or.inr (Or.inr h)
    have hfound : r.2 = true ↔ target ∈ ((U ++ c :: V).flatMap Node.leaves).flatMap Leaf.keys := by
      rw [hr.removes.found, mem_cut]
      exact ⟨fun h => Or.inr (Or.inl h),
        fun h => h.elim (fun h => absurd h hU') fun h => h.elim id fun h => absurd h hV'⟩
    have hlinks : Shrinks (links ((U ++ c :: V).flatMap Node.leaves))
        (links ((U ++ r.1 :: V).flatMap Node.leaves)) := by
      simp only [List.flatMap_append, List.flatMap_cons, links_append]
      exact hr.removes.links.context _ _
    have hstep : Node.delete (h := h + 1) target (⟨A ++ B, U ++ c :: V⟩ : Inner (Node h)) =
        if r.2 then (fixChild A.length (⟨A ++ B, U ++ r.1 :: V⟩ : Inner (Node h))).bind
          fun n => some (n, true)
        else some ((⟨A ++ B, U ++ r.1 :: V⟩ : Inner (Node h)), false) := by
      rw [delete_inner]
      rw [hidx, hget, Option.bind_some, heq, Option.bind_some, hset]
    rw [hstep]
    cases hb : r.2 with
    | false =>
      rw [if_neg (by simp)]
      have hsame := hr.same hb
      rw [hsame] at hmem hlinks ⊢
      rw [hb] at hfound
      exact ⟨_, rfl, hg, Nat.le_succ _, le_rfl, fun _ => rfl, hmem, hfound, hlinks⟩
    | true =>
      rw [if_pos rfl]
      have hweak : Weakened target c r.1 := by
        refine ⟨fun lo hi hc ht => ?_, hr.atMostOne, hr.noneNew⟩
        obtain ⟨r', heq', hr'⟩ := delete_spec hc.1 ht (hpos hc)
        obtain rfl : r = r' := Option.some.inj (heq.symm.trans heq')
        exact hr'.good
      obtain ⟨n', hfix, hf⟩ := fixChild_spec hg hU ht hA hB hkeys hweak
      rw [hfix, Option.bind_some]
      rw [hb] at hfound
      have hentries : (n'.children.flatMap Node.leaves).flatMap Leaf.keys =
          ((U ++ r.1 :: V).flatMap Node.leaves).flatMap Leaf.keys := by
        rw [List.flatMap_assoc, List.flatMap_assoc]
        exact hf.entries
      refine ⟨_, rfl, hf.good, hf.atMostOne, hf.noneNew, fun h => (by cases h), fun x => ?_, hfound,
        hlinks.trans hf.links⟩
      refine Iff.trans ?_ (hmem x)
      rw [← hentries]
      rfl

end Cachey.BTree
