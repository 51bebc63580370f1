/-
# Binary search

The loop of Go's `sort.Search`, on a fuel argument that bounds the number of halvings, and
the one fact the callers need: on a list sorted by a linear order, searching for `x` and
comparing the element found with `x` decides membership.
-/
import Mathlib.Data.List.Sort

namespace Cachey

/-- The loop of `sort.Search`: `i` and `j` close in on the least index at which `f` holds. -/
def searchLoop (f : Nat → Bool) : (fuel i j : Nat) → Nat
  | 0, i, _ => i
  | fuel + 1, i, j =>
    if i < j then
      let h := (i + j) / 2
      if f h then searchLoop f fuel i h else searchLoop f fuel (h + 1) j
    else i

/-- `sort.Search(n, f)`. -/
def search (n : Nat) (f : Nat → Bool) : Nat := searchLoop f n 0 n

/-- **What the loop returns.**  If `f` fails below `i`, holds from `j` on, and does not switch
back to false, the result is the index at which it switches. -/
theorem searchLoop_spec (f : Nat → Bool) (mono : ∀ a b, a ≤ b → f a = true → f b = true) :
    ∀ (fuel i j : Nat), i ≤ j → j - i ≤ fuel → (∀ a, a < i → f a = false) →
      i ≤ searchLoop f fuel i j ∧ searchLoop f fuel i j ≤ j ∧
      (∀ a, a < searchLoop f fuel i j → f a = false) ∧
      (∀ a, searchLoop f fuel i j ≤ a → a < j → f a = true) := by
  intro fuel
  induction fuel with
  | zero =>
    intro i j hij hf hlo
    have : i = j := by omega
    subst this
    exact ⟨le_refl _, le_refl _, hlo, fun a h1 h2 => absurd h2 (by simp [searchLoop] at h1; omega)⟩
  | succ fuel ih =>
    intro i j hij hf hlo
    simp only [searchLoop]
    by_cases hlt : i < j
    · simp only [hlt, if_true]
      by_cases hh : f ((i + j) / 2) = true
      · simp only [hh, if_true]
        obtain ⟨h1, h2, h3, h4⟩ := ih i ((i + j) / 2) (by omega) (by omega) hlo
        refine ⟨h1, by omega, h3, fun a ha haj => ?_⟩
        rcases Nat.lt_or_ge a ((i + j) / 2) with hc | hc
        · exact h4 a ha hc
        · exact mono _ _ hc hh
      · simp only [hh]
        have hlo' : ∀ a, a < (i + j) / 2 + 1 → f a = false := by
          intro a ha
          cases hfa : f a with
          | false => rfl
          | true => exact absurd (mono a _ (by omega) hfa) hh
        obtain ⟨h1, h2, h3, h4⟩ := ih ((i + j) / 2 + 1) j (by omega) (by omega) hlo'
        exact ⟨by simp at h1 ⊢; omega, h2, h3, h4⟩
    · have : i = j := by omega
      subst this
      simp only [lt_irrefl, if_false]
      exact ⟨le_refl _, le_refl _, hlo, fun a h1 h2 => absurd h2 (by omega)⟩

section Sorted

variable {α : Type} [LinearOrder α] {l : List α}

/-- The predicate `sort.SearchStrings` searches with: the element at `i` is at least `x`. -/
def atLeast (l : List α) (x : α) (i : Nat) : Bool :=
  match l[i]? with
  | some y => decide (x ≤ y)
  | none => true

/-- `sort.SearchStrings(a, x)`: the least index whose element is at least `x`. -/
def searchSorted (l : List α) (x : α) : Nat := search l.length (atLeast l x)

theorem atLeast_of_lt {x : α} {i : Nat} (h : i < l.length) : atLeast l x i = decide (x ≤ l[i]) := by
  simp [atLeast, List.getElem?_eq_getElem h]

theorem atLeast_mono (hs : l.Pairwise (· ≤ ·)) (x : α) (a b : Nat) (hab : a ≤ b)
    (ha : atLeast l x a = true) : atLeast l x b = true := by
  rcases Nat.lt_or_ge b l.length with hb | hb
  · have ha' : a < l.length := by omega
    rw [atLeast_of_lt ha', decide_eq_true_eq] at ha
    rw [atLeast_of_lt hb, decide_eq_true_eq]
    rcases Nat.lt_or_ge a b with hlt | hge
    · exact le_trans ha (List.pairwise_iff_getElem.mp hs a b ha' hb hlt)
    · have : a = b := by omega
      subst this; exact ha
  · simp [atLeast, List.getElem?_eq_none hb]

/-- The index found names `x` exactly when `x` is in the list. -/
theorem searchSorted_iff (hs : l.Pairwise (· ≤ ·)) (x : α) :
    l[searchSorted l x]? = some x ↔ x ∈ l := by
  refine ⟨fun h => List.mem_of_getElem? h, fun hx => ?_⟩
  obtain ⟨_, _, below, above⟩ := searchLoop_spec _ (atLeast_mono hs x) l.length 0 l.length
    (Nat.zero_le _) (by omega) (fun a ha => absurd ha (by omega))
  change ∀ a, a < searchSorted l x → _ at below
  obtain ⟨k, hk, hkx⟩ := List.getElem_of_mem hx
  have hle : searchSorted l x ≤ k := by
    by_contra hlt
    have := below k (by omega)
    simp [atLeast_of_lt hk, hkx] at this
  have hlt : searchSorted l x < l.length := by omega
  have hge := above (searchSorted l x) (le_refl _) hlt
  rw [atLeast_of_lt hlt, decide_eq_true_eq] at hge
  have hle' : l[searchSorted l x] ≤ x := by
    rcases Nat.lt_or_ge (searchSorted l x) k with h | h
    · exact hkx ▸ List.pairwise_iff_getElem.mp hs _ k hlt hk h
    · have : searchSorted l x = k := by omega
      simp [this, hkx]
  rw [List.getElem?_eq_getElem hlt]
  exact congrArg some (le_antisymm hle' hge)

end Sorted

end Cachey
