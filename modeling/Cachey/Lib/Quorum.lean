/-
# Quorum intersection

The counting facts every agreement argument rests on: two byzantine quorums (`2f+1` out of
`3f+1`) share a member outside any fault set of size `f`, two strict majorities share a member,
and -- for quorums of ANY size -- how small the overlap of two of them can be.
-/
import Mathlib.Data.Finset.Card

namespace Cachey

variable {R : Type} [DecidableEq R] {S : Finset R} {q : ℕ}

/-- A fault assignment: `3f+1` members of whom at most `f` are faulty. -/
structure FaultBound (members faulty : Finset R) (f : ℕ) : Prop where
  size : members.card = 3 * f + 1
  bound : (members ∩ faulty).card ≤ f

namespace FaultBound

variable {members faulty Q : Finset R} {f : ℕ}

theorem correct_card (h : FaultBound members faulty f) {k : ℕ} (hQ : Q ⊆ members)
    (hcard : f + k ≤ Q.card) : k ≤ (Q \ faulty).card := by
  have hsplit := Finset.card_sdiff_add_card_inter Q faulty
  have hbound : (Q ∩ faulty).card ≤ f :=
    (Finset.card_le_card (Finset.inter_subset_inter_right hQ)).trans h.bound
  omega

/-- A set of members larger than `f` has a correct one. -/
theorem exists_correct (h : FaultBound members faulty f) (hQ : Q ⊆ members) (hcard : f < Q.card) :
    ∃ r ∈ Q, r ∉ faulty := by
  obtain ⟨r, hr⟩ := Finset.card_pos.mp (h.correct_card (k := 1) hQ hcard)
  exact ⟨r, (Finset.mem_sdiff.mp hr).1, (Finset.mem_sdiff.mp hr).2⟩

theorem exists_correct_inter (h : FaultBound members faulty f) {Q₁ Q₂ : Finset R}
    (h₁ : Q₁ ⊆ members) (h₂ : Q₂ ⊆ members) (c₁ : 2 * f + 1 ≤ Q₁.card)
    (c₂ : 2 * f + 1 ≤ Q₂.card) : ∃ r ∈ Q₁, r ∈ Q₂ ∧ r ∉ faulty := by
  have hunion : (Q₁ ∪ Q₂).card ≤ 3 * f + 1 :=
    h.size ▸ Finset.card_le_card (Finset.union_subset h₁ h₂)
  have hsum := Finset.card_union_add_card_inter Q₁ Q₂
  obtain ⟨r, hr, hc⟩ := h.exists_correct (Q := Q₁ ∩ Q₂)
    (fun r hr => h₁ (Finset.mem_inter.mp hr).1) (by omega)
  obtain ⟨hr₁, hr₂⟩ := Finset.mem_inter.mp hr
  exact ⟨r, hr₁, hr₂, hc⟩

end FaultBound

theorem majority_inter {voters Q₁ Q₂ : Finset R} (h₁ : Q₁ ⊆ voters) (h₂ : Q₂ ⊆ voters)
    (c₁ : voters.card < 2 * Q₁.card) (c₂ : voters.card < 2 * Q₂.card) :
    ∃ r ∈ Q₁, r ∈ Q₂ := by
  have hunion : (Q₁ ∪ Q₂).card ≤ voters.card := Finset.card_le_card (Finset.union_subset h₁ h₂)
  have hsum := Finset.card_union_add_card_inter Q₁ Q₂
  obtain ⟨r, hr⟩ := Finset.card_pos.mp (show 0 < (Q₁ ∩ Q₂).card by omega)
  exact ⟨r, (Finset.mem_inter.mp hr).1, (Finset.mem_inter.mp hr).2⟩

/-! ## The least overlap -/

theorem exists_least_inter (hq : q ≤ S.card) :
    ∃ Q₁ ⊆ S, ∃ Q₂ ⊆ S, Q₁.card = q ∧ Q₂.card = q ∧ (Q₁ ∩ Q₂).card = 2 * q - S.card := by
  obtain ⟨Q₁, h₁, c₁⟩ := Finset.exists_subset_card_eq hq
  have hrest : (S \ Q₁).card = S.card - q := by rw [Finset.card_sdiff_of_subset h₁, c₁]
  rcases Nat.lt_or_ge (S.card - q) q with hlt | hge
  · -- the rest of `S` is too small for a second quorum: take all of it and fill up from `Q₁`
    obtain ⟨X, hX, cX⟩ := Finset.exists_subset_card_eq (s := Q₁) (n := 2 * q - S.card) (by omega)
    have hdisj : Disjoint X (S \ Q₁) :=
      Finset.disjoint_of_subset_left hX Finset.disjoint_sdiff
    refine ⟨Q₁, h₁, X ∪ S \ Q₁, Finset.union_subset (hX.trans h₁) Finset.sdiff_subset, c₁, ?_, ?_⟩
    · rw [Finset.card_union_of_disjoint hdisj]
      omega
    · rw [Finset.inter_union_distrib_left, Finset.inter_eq_right.mpr hX,
        Finset.inter_sdiff_self, Finset.union_empty, cX]
  · obtain ⟨Q₂, h₂, c₂⟩ := Finset.exists_subset_card_eq (s := S \ Q₁) (n := q) (by omega)
    have hdisj : Disjoint Q₁ Q₂ := Finset.disjoint_of_subset_right h₂ Finset.disjoint_sdiff
    refine ⟨Q₁, h₁, Q₂, h₂.trans Finset.sdiff_subset, c₁, c₂, ?_⟩
    rw [Finset.disjoint_iff_inter_eq_empty.mp hdisj, Finset.card_empty]
    omega

/-- **How much any two quorums share.**  Quorums of size `q` out of `n` share at least `k`
members, whichever two are taken, exactly when `k ≤ 2q - n`. -/
theorem forall_inter_iff {k : ℕ} (hq : q ≤ S.card) :
    (∀ Q₁ ⊆ S, ∀ Q₂ ⊆ S, Q₁.card = q → Q₂.card = q → k ≤ (Q₁ ∩ Q₂).card) ↔
      k ≤ 2 * q - S.card := by
  constructor
  · intro h
    obtain ⟨Q₁, h₁, Q₂, h₂, c₁, c₂, hinter⟩ := exists_least_inter hq
    exact hinter ▸ h Q₁ h₁ Q₂ h₂ c₁ c₂
  · intro hk Q₁ h₁ Q₂ h₂ c₁ c₂
    have hunion : (Q₁ ∪ Q₂).card ≤ S.card := Finset.card_le_card (Finset.union_subset h₁ h₂)
    have hsum := Finset.card_union_add_card_inter Q₁ Q₂
    omega

end Cachey
