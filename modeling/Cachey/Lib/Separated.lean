/-
# Sequences with separators

`n + 1` children with `n` separators between them, as in an inner node of a search tree: each
child lies between the separators next to it.  What "a child lies between two bounds" means is a
parameter, and a missing bound is no bound.

* `Separated.append`, `Separated.split`: a sequence is cut at a separator and put together again.
* `Separated.window`: a stretch of the sequence is taken out, and whatever fits between the bounds
  around it can be put in its place.  Every local change of an inner node is one of these.
* `Separated.between`, `Separated.pairwise`: what the children contain, one after another, is in
  order.
-/
import Mathlib.Data.List.Basic
import Mathlib.Order.Lattice

namespace Cachey

variable {α β : Type} [LinearOrder α] {lo hi : Option α} {k x : α}

/-- From the lower bound on and below the upper bound. -/
def Between (lo hi : Option α) (x : α) : Prop := (∀ a ∈ lo, a ≤ x) ∧ ∀ b ∈ hi, x < b

/-- Above the lower bound and below the upper bound. -/
def Inside (lo hi : Option α) (x : α) : Prop := (∀ a ∈ lo, a < x) ∧ ∀ b ∈ hi, x < b

/-- Each separator is above the ones before it, each child between its two. -/
inductive Separated (P : Option α → Option α → β → Prop) :
    Option α → Option α → List α → List β → Prop where
  | single {lo hi : Option α} {c : β} : P lo hi c → Separated P lo hi [] [c]
  | cons {lo hi : Option α} {k : α} {c : β} {ks : List α} {cs : List β} : Inside lo hi k →
      P lo (some k) c → Separated P (some k) hi ks cs → Separated P lo hi (k :: ks) (c :: cs)

theorem Between.of_low (hk : Inside lo hi k) (h : Between lo (some k) x) : Between lo hi x :=
  ⟨h.1, fun b hb => lt_trans (h.2 k rfl) (hk.2 b hb)⟩

theorem Between.of_high (hk : Inside lo hi k) (h : Between (some k) hi x) : Between lo hi x :=
  ⟨fun a ha => le_of_lt (lt_of_lt_of_le (hk.1 a ha) (h.1 k rfl)), h.2⟩

theorem Inside.of_low (hk : Inside lo hi k) (h : Inside lo (some k) x) : Inside lo hi x :=
  ⟨h.1, fun b hb => lt_trans (h.2 k rfl) (hk.2 b hb)⟩

theorem Inside.of_high (hk : Inside lo hi k) (h : Inside (some k) hi x) : Inside lo hi x :=
  ⟨fun a ha => lt_trans (hk.1 a ha) (h.1 k rfl), h.2⟩

namespace Separated

variable {P : Option α → Option α → β → Prop} {lo hi : Option α} {ks ks₁ ks₂ B M : List α}
  {cs cs₁ cs₂ V D : List β} {k : α} {f : β → List α}

theorem length (h : Separated P lo hi ks cs) : cs.length = ks.length + 1 := by
  induction h with
  | single _ => rfl
  | cons _ _ _ ih => simp [ih]

theorem inside (h : Separated P lo hi ks cs) : ∀ x ∈ ks, Inside lo hi x := by
  induction h with
  | single _ => simp
  | cons hk _ _ ih =>
    intro x hx
    rcases List.mem_cons.mp hx with rfl | hx
    · exact hk
    · exact Inside.of_high hk (ih x hx)

theorem sorted (h : Separated P lo hi ks cs) : ks.Pairwise (· < ·) := by
  induction h with
  | single _ => exact List.Pairwise.nil
  | cons _ _ htail ih => exact List.pairwise_cons.mpr ⟨fun x hx => (htail.inside x hx).1 _ rfl, ih⟩

theorem append (h₁ : Separated P lo (some k) ks₁ cs₁) (hk : Inside lo hi k)
    (h₂ : Separated P (some k) hi ks₂ cs₂) :
    Separated P lo hi (ks₁ ++ k :: ks₂) (cs₁ ++ cs₂) := by
  generalize hmid : some k = mid at h₁
  induction h₁ with
  | single hc => exact .cons hk (hmid ▸ hc) h₂
  | cons hk' hc _ ih =>
    subst hmid
    refine .cons (Inside.of_low hk hk') hc (ih ⟨fun a ha => ?_, hk.2⟩ rfl)
    cases ha
    exact hk'.2 k rfl

theorem split : ∀ {ks₁ : List α} {cs₁ : List β} {lo : Option α},
    Separated P lo hi (ks₁ ++ k :: ks₂) (cs₁ ++ cs₂) → cs₁.length = ks₁.length + 1 →
    Separated P lo (some k) ks₁ cs₁ ∧ Inside lo hi k ∧ Separated P (some k) hi ks₂ cs₂
  | [], [c], lo, h, _ => by
    cases h with
    | cons hk hc htail => exact ⟨.single hc, hk, htail⟩
  | k' :: ks₁, c :: cs₁, lo, h, hlen => by
    cases h with
    | cons hk' hc htail =>
      obtain ⟨h₁, hk, h₂⟩ := split htail (Nat.succ.inj hlen)
      refine ⟨.cons ⟨hk'.1, fun b hb => ?_⟩ hc h₁, Inside.of_high hk' hk, h₂⟩
      cases hb
      exact hk.1 k' rfl

/-- The sequence from some child on; whatever has its bounds may stand there instead. -/
theorem window_low : ∀ {A M : List α} {U D : List β} {lo : Option α},
    Separated P lo hi (A ++ M) (U ++ D) → U.length = A.length →
    ∃ lo', Separated P lo' hi M D ∧ (∀ a ∈ lo', a ∈ lo ∨ a ∈ A) ∧
      ∀ M' D', Separated P lo' hi M' D' → Separated P lo hi (A ++ M') (U ++ D')
  | [], M, [], D, lo, h, _ => ⟨lo, h, fun _ ha => Or.inl ha, fun _ _ h' => h'⟩
  | k :: A, M, c :: U, D, lo, h, hlen => by
    cases h with
    | cons hk hc htail =>
      obtain ⟨lo', hin, hlo, hput⟩ := window_low htail (Nat.succ.inj hlen)
      refine ⟨lo', hin, fun a ha => ?_, fun M' D' h' => .cons hk hc (hput M' D' h')⟩
      rcases hlo a ha with h | h
      · exact Or.inr (Option.some.inj h ▸ List.mem_cons_self)
      · exact Or.inr (List.mem_cons_of_mem _ h)

theorem window_high (h : Separated P lo hi (M ++ B) (D ++ V)) (hlen : D.length = M.length + 1) :
    ∃ hi', Separated P lo hi' M D ∧ (∀ b ∈ hi', b ∈ hi ∨ b ∈ B) ∧
      ∀ M' D', Separated P lo hi' M' D' → Separated P lo hi (M' ++ B) (D' ++ V) := by
  cases B with
  | nil =>
    have hV : V = [] := by
      have := h.length
      simp only [List.length_append, List.append_nil] at this
      exact List.eq_nil_of_length_eq_zero (by omega)
    subst hV
    simp only [List.append_nil] at h ⊢
    exact ⟨hi, h, fun _ hb => Or.inl hb, fun _ _ h' => h'⟩
  | cons b B =>
    obtain ⟨h₁, hk, h₂⟩ := split h hlen
    refine ⟨some b, h₁, fun x hx => Or.inr (Option.some.inj hx ▸ List.mem_cons_self), ?_⟩
    intro M' D' h'
    exact append h' hk h₂

/-- **A stretch in the middle.**  It has bounds of its own, among those around it; whatever fits
between them may take its place. -/
theorem window {A K : List α} {U C : List β} (h : Separated P lo hi (A ++ (K ++ B)) (U ++ (C ++ V)))
    (hU : U.length = A.length) (hC : C.length = K.length + 1) :
    ∃ lo' hi', Separated P lo' hi' K C ∧ (∀ a ∈ lo', a ∈ lo ∨ a ∈ A) ∧
      (∀ b ∈ hi', b ∈ hi ∨ b ∈ B) ∧
      ∀ K' C', Separated P lo' hi' K' C' →
        Separated P lo hi (A ++ (K' ++ B)) (U ++ (C' ++ V)) := by
  obtain ⟨lo', hin, hlo, hput⟩ := window_low h hU
  obtain ⟨hi', hin', hhi, hput'⟩ := window_high hin hC
  exact ⟨lo', hi', hin', hlo, hhi, fun K' C' h' => hput _ _ (hput' K' C' h')⟩

/-- If every child's contents are between its bounds, all contents are between the outer ones. -/
theorem between (hf : ∀ lo hi c, P lo hi c → ∀ x ∈ f c, Between lo hi x)
    (h : Separated P lo hi ks cs) : ∀ x ∈ cs.flatMap f, Between lo hi x := by
  induction h with
  | single hc => simpa using hf _ _ _ hc
  | cons hk hc _ ih =>
    intro x hx
    rw [List.flatMap_cons, List.mem_append] at hx
    rcases hx with hx | hx
    · exact Between.of_low hk (hf _ _ _ hc x hx)
    · exact Between.of_high hk (ih x hx)

theorem pairwise (hf : ∀ lo hi c, P lo hi c → ∀ x ∈ f c, Between lo hi x)
    (hs : ∀ lo hi c, P lo hi c → (f c).Pairwise (· < ·)) (h : Separated P lo hi ks cs) :
    (cs.flatMap f).Pairwise (· < ·) := by
  induction h with
  | single hc => simpa using hs _ _ _ hc
  | cons hk hc htail ih =>
    rw [List.flatMap_cons, List.pairwise_append]
    refine ⟨hs _ _ _ hc, ih, fun x hx y hy => ?_⟩
    exact lt_of_lt_of_le ((hf _ _ _ hc x hx).2 _ rfl) ((htail.between hf y hy).1 _ rfl)

theorem before (hf : ∀ lo hi c, P lo hi c → ∀ x ∈ f c, Between lo hi x) :
    ∀ {A M : List α} {U D : List β} {lo : Option α}, Separated P lo hi (A ++ M) (U ++ D) →
    U.length = A.length → ∀ x ∈ U.flatMap f, ∃ a ∈ A, x < a
  | [], _, [], _, _, _, _, x, hx => by simp at hx
  | k :: A, _, c :: U, _, _, h, hlen, x, hx => by
    cases h with
    | cons hk hc htail =>
      rw [List.flatMap_cons, List.mem_append] at hx
      rcases hx with hx | hx
      · exact ⟨k, List.mem_cons_self, (hf _ _ _ hc x hx).2 k rfl⟩
      · obtain ⟨a, ha, hlt⟩ := before hf htail (Nat.succ.inj hlen) x hx
        exact ⟨a, List.mem_cons_of_mem _ ha, hlt⟩

theorem after (hf : ∀ lo hi c, P lo hi c → ∀ x ∈ f c, Between lo hi x)
    (h : Separated P lo hi (M ++ B) (D ++ V)) (hlen : D.length = M.length + 1) :
    ∀ x ∈ V.flatMap f, ∃ b ∈ B, b ≤ x := by
  intro x hx
  cases B with
  | nil =>
    have := h.length
    simp only [List.length_append, List.append_nil] at this
    obtain rfl : V = [] := List.eq_nil_of_length_eq_zero (by omega)
    simp at hx
  | cons b B =>
    obtain ⟨-, -, h₂⟩ := split h hlen
    exact ⟨b, List.mem_cons_self, (h₂.between hf x hx).1 b rfl⟩

end Separated

end Cachey
