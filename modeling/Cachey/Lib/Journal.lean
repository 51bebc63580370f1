/-
# A list kept in an append-only journal

A list of values that starts above an index `base` is kept in a journal of (index, value) records
that only grows.  Writing the value at index `i` drops what the list has from `i` on; the journal
does not say so, a later record at a lower index IMPLIES it.  The base may move up; the journal
does not hear of it either.

`rebuild` replays a journal from a base: a record at or below the base is skipped, any other cuts
the list at its index and adds its value.

* `Dense`: on its way from the base the replay never meets a record beyond the end of its list;
* `Dense.drop`: from a higher base that is still inside the list, the replay gives the rest of
  the list;
* `Durable.rebuild_iff`: the replay gives the list that was kept, unless the list is empty and the
  journal still has records above the base, written before the base moved past the end.
-/
import Mathlib.Data.List.Induction

namespace Cachey

namespace Journal

variable {α : Type} {base base' : ℕ} {r : ℕ × α} {w : List (ℕ × α)} {l : List α}

/-! ## 1. Replay -/

/-- One record, replayed from `base`. -/
def place (base : ℕ) (l : List α) (r : ℕ × α) : List α :=
  if r.1 ≤ base then l else l.take (r.1 - base - 1) ++ [r.2]

/-- The replay of a journal from `base`. -/
def rebuild (base : ℕ) (w : List (ℕ × α)) : List α := w.foldl (place base) []

@[simp] theorem rebuild_nil (base : ℕ) : rebuild base ([] : List (ℕ × α)) = [] := rfl

@[simp] theorem rebuild_concat (base : ℕ) (w : List (ℕ × α)) (r : ℕ × α) :
    rebuild base (w ++ [r]) = place base (rebuild base w) r := by
  simp [rebuild]

theorem place_of_le (h : r.1 ≤ base) : place base l r = l :=
  if_pos h

theorem place_of_lt (h : base < r.1) : place base l r = l.take (r.1 - base - 1) ++ [r.2] :=
  if_neg (Nat.not_le.mpr h)

/-- The replay gives nothing exactly when every record is at or below the base. -/
theorem rebuild_eq_nil_iff : rebuild base w = [] ↔ ∀ r ∈ w, r.1 ≤ base := by
  induction w using List.reverseRecOn with
  | nil => simp
  | append_singleton w r ih =>
    rw [rebuild_concat]
    by_cases hr : r.1 ≤ base
    · rw [place_of_le hr, ih]
      simp [or_imp, forall_and, hr]
    · rw [place_of_lt (Nat.not_le.mp hr)]
      constructor
      · intro h
        simp at h
      · intro h
        exact absurd (h r (by simp)) hr

/-! ## 2. Journals without gaps -/

/-- The replay from `base` never meets a record beyond the end of its list. -/
def Dense (base : ℕ) (w : List (ℕ × α)) : Prop :=
  ∀ w₁ r w₂, w = w₁ ++ r :: w₂ → base < r.1 → r.1 ≤ base + (rebuild base w₁).length + 1

theorem Dense.nil (base : ℕ) : Dense base ([] : List (ℕ × α)) := by
  intro w₁ r w₂ h
  simp at h

theorem dense_concat_iff :
    Dense base (w ++ [r]) ↔
      Dense base w ∧ (base < r.1 → r.1 ≤ base + (rebuild base w).length + 1) := by
  constructor
  · intro h
    refine ⟨fun w₁ r' w₂ hw => ?_, h w r [] rfl⟩
    exact h w₁ r' (w₂ ++ [r]) (by simp [hw])
  · rintro ⟨h, hr⟩ w₁ r' w₂ hw
    rcases List.eq_nil_or_concat w₂ with rfl | ⟨w₂', r₂, rfl⟩
    · obtain ⟨rfl, heq⟩ := List.append_inj' hw rfl
      cases heq
      exact hr
    · refine h w₁ r' w₂' ?_
      rw [List.concat_eq_append, ← List.cons_append, ← List.append_assoc] at hw
      exact (List.append_inj' hw rfl).1

/-- Both halves of the argument for a higher base, together: the journal is dense from there, and
inside the list the replay gives the rest of it. -/
theorem Dense.above (hle : base ≤ base') (h : Dense base w) : Dense base' w ∧
      (base' < base + (rebuild base w).length →
        rebuild base' w = (rebuild base w).drop (base' - base)) := by
  induction w using List.reverseRecOn with
  | nil =>
    refine ⟨Dense.nil base', fun hlt => ?_⟩
    simp
  | append_singleton w r ih =>
    obtain ⟨hw, hr⟩ := dense_concat_iff.mp h
    obtain ⟨hdense, hdrop⟩ := ih hw
    rw [dense_concat_iff, rebuild_concat, rebuild_concat]
    rcases Nat.lt_or_ge base' r.1 with hhigh | hlow
    · -- a record above both bases lands at the same index in both lists
      have hfit := hr (by omega)
      rw [place_of_lt hhigh, place_of_lt (by omega)]
      by_cases hin : base' < base + (rebuild base w).length
      · rw [hdrop hin]
        refine ⟨⟨hdense, fun _ => ?_⟩, fun _ => ?_⟩
        · rw [List.length_drop]
          omega
        · rw [List.drop_append_of_le_length (by rw [List.length_take]; omega), List.drop_take]
          congr 2
          omega
      · have hone : r.1 = base' + 1 := by omega
        refine ⟨⟨hdense, fun _ => by omega⟩, fun _ => ?_⟩
        have htake : (rebuild base w).take (r.1 - base - 1) = rebuild base w :=
          List.take_of_length_le (by omega)
        have hlen : (rebuild base w).length = base' - base := by omega
        rw [htake, List.drop_append_of_le_length (by omega), ← hlen, List.drop_length]
        simp [hone]
    · rw [place_of_le hlow]
      refine ⟨⟨hdense, fun hlt => absurd hlt (by omega)⟩, fun hlt => ?_⟩
      rcases Nat.lt_or_ge base r.1 with hmid | hbelow
      · -- a record between the bases cuts the longer list down to below the higher base
        rw [place_of_lt hmid, List.length_append, List.length_take, List.length_singleton] at hlt
        omega
      · rw [place_of_le hbelow] at hlt ⊢
        exact hdrop hlt

theorem Dense.mono (h : Dense base w) (hle : base ≤ base') : Dense base' w :=
  (h.above hle).1

theorem Dense.drop (h : Dense base w) (hle : base ≤ base')
    (hlt : base' < base + (rebuild base w).length) :
    rebuild base' w = (rebuild base w).drop (base' - base) :=
  (h.above hle).2 hlt

/-! ## 3. A list and its journal -/

/-- The list above `base` is what the journal says, where it has anything at all. -/
structure Durable (base : ℕ) (l : List α) (w : List (ℕ × α)) : Prop where
  dense : Dense base w
  kept : l ≠ [] → rebuild base w = l

namespace Durable

variable {base i base' : ℕ} {l : List α} {w : List (ℕ × α)}

theorem nil (base : ℕ) : Durable base ([] : List α) [] where
  dense := Dense.nil base
  kept := fun h => absurd rfl h

/-- The value `a` is written at index `i`, over what the list has from there on. -/
theorem write (h : Durable base l w) (a : α) (hlo : base < i) (hhi : i ≤ base + l.length + 1) :
    Durable base (l.take (i - base - 1) ++ [a]) (w ++ [(i, a)]) := by
  by_cases hl : l = []
  · subst hl
    have hi : i - base - 1 = 0 := by simp at hhi; omega
    refine ⟨dense_concat_iff.mpr ⟨h.dense, fun _ => by simp at hhi ⊢; omega⟩, fun _ => ?_⟩
    rw [rebuild_concat, place_of_lt hlo]
    simp [hi]
  · have hkept := h.kept hl
    refine ⟨dense_concat_iff.mpr ⟨h.dense, fun _ => by rw [hkept]; exact hhi⟩, fun _ => ?_⟩
    rw [rebuild_concat, place_of_lt hlo, hkept]

theorem writes (h : Durable base l w) (hlo : base < i) (hhi : i ≤ base + l.length + 1) :
    ∀ as : List α, as ≠ [] →
      Durable base (l.take (i - base - 1) ++ as) (w ++ (as.zipIdx i).map fun x => (x.2, x.1)) := by
  intro as
  induction as using List.reverseRecOn with
  | nil => exact fun hne => absurd rfl hne
  | append_singleton as a ih =>
    intro _
    by_cases has : as = []
    · subst has
      simpa using h.write a hlo hhi
    · have hlen : (l.take (i - base - 1)).length = i - base - 1 := by
        rw [List.length_take]
        omega
      have hprev := ih has
      have hnext := hprev.write (i := i + as.length) a (by omega)
        (by rw [List.length_append, hlen]; omega)
      have htake : (l.take (i - base - 1) ++ as).take (i + as.length - base - 1) =
          l.take (i - base - 1) ++ as :=
        List.take_of_length_le (by rw [List.length_append, hlen]; omega)
      rw [htake] at hnext
      simpa [List.zipIdx_append, List.append_assoc] using hnext

theorem rebase (h : Durable base l w) (hle : base ≤ base') :
    Durable base' (l.drop (base' - base)) w := by
  refine ⟨h.dense.mono hle, fun hne => ?_⟩
  have hlt : base' - base < l.length := by
    rw [ne_eq, List.drop_eq_nil_iff] at hne
    omega
  have hkept := h.kept (fun h0 => by simp [h0] at hlt)
  rw [h.dense.drop hle (by rw [hkept]; omega), hkept]

/-- The list is given up for one that starts, empty, at a higher base. -/
theorem reset (h : Durable base l w) (hle : base ≤ base') :
    Durable base' ([] : List α) w where
  dense := h.dense.mono hle
  kept := fun hne => absurd rfl hne

theorem recover (h : Durable base l w) : Durable base (rebuild base w) w where
  dense := h.dense
  kept := fun _ => rfl

theorem rebuild_iff (h : Durable base l w) :
    rebuild base w = l ↔ (l = [] → ∀ r ∈ w, r.1 ≤ base) := by
  by_cases hl : l = []
  · subst hl
    simp [rebuild_eq_nil_iff]
  · simp [hl, h.kept hl]

end Durable

end Journal

end Cachey
