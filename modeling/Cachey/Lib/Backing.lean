/-
# Slices that share a backing array

A slice of Go is a window on an array.  `append(s[:p], a)` writes INTO the array behind `s` when
that has a cell at `p`, and moves to a new array only when it is full: every other slice of the
array, handed out earlier, then shows `a` as well.

`Arrays` is the history of the arrays one such slice has lived in, from its owner's side: only the
owner appends, always to the array the slice lives in now.  `Shows` says which elements the slice
has, so that the owner may go on thinking in lists (`Shows.put`).  A `Window` is a slice somebody
else has kept.  What it shows survives an append at or behind its end, and everything that
happens after its array was given up (`window_put`, `window_move`); an append in front of its end
is what changes it.
-/
import Mathlib.Data.List.GetD
import Mathlib.Algebra.Order.Group.Nat

namespace Cachey

variable {α : Type}

/-- The arrays, by number, each up to its capacity, and the one the slice lives in. -/
structure Arrays (α : Type) where
  current : ℕ
  cells : ℕ → List α

/-- A part of an array. -/
structure Window where
  arr : ℕ
  pos : ℕ
  len : ℕ
deriving DecidableEq

namespace Arrays

/-- The capacity of the current array. -/
def capacity (m : Arrays α) : ℕ := (m.cells m.current).length

def window (m : Arrays α) (w : Window) : List α := ((m.cells w.arr).drop w.pos).take w.len

/-- The slice has the elements `l`. -/
def Shows (m : Arrays α) (l : List α) : Prop := l <+: m.cells m.current

/-- The slice moves to a new array, with `room` cells to spare. -/
def move [Inhabited α] (room : ℕ) (l : List α) (m : Arrays α) : Arrays α where
  current := m.current + 1
  cells := fun k => if k = m.current + 1 then l ++ List.replicate room default else m.cells k

/-- `append(s[:p], a)`.  An array that is full is replaced by one with `spare cap need` cells more
than are needed, from the old capacity and the new length. -/
def put [Inhabited α] (spare : ℕ → ℕ → ℕ) (p : ℕ) (a : α) (m : Arrays α) : Arrays α :=
  if p < m.capacity then
    { m with cells := fun k => if k = m.current then (m.cells k).set p a else m.cells k }
  else m.move (spare m.capacity (p + 1)) ((m.cells m.current).take p ++ [a])

/-- The array of one literal element. -/
def single (a : α) : Arrays α where
  current := 0
  cells := fun k => if k = 0 then [a] else []

variable {m : Arrays α} {l : List α} {w : Window} {p q : ℕ}

/-! ## 1. What a slice and a window show -/

theorem shows_single (a : α) : (single a).Shows [a] := List.prefix_refl _

theorem Shows.take (h : m.Shows l) (hp : p ≤ l.length) :
    (m.cells m.current).take p = l.take p := by
  obtain ⟨rest, hrest⟩ := h
  rw [← hrest, List.take_append_of_le_length hp]

@[simp] theorem window_nil {k p : ℕ} : m.window ⟨k, p, 0⟩ = [] := List.take_zero

theorem Shows.window (h : m.Shows l) (hp : p ≤ l.length) :
    m.window ⟨m.current, p, (l.drop p).length⟩ = l.drop p := by
  obtain ⟨rest, hrest⟩ := h
  unfold Arrays.window
  rw [← hrest, List.drop_append_of_le_length hp, List.take_left]

/-- The window lies in front of cell `p`, or in an array that was given up. -/
def Before (m : Arrays α) (p : ℕ) (w : Window) : Prop :=
  w.arr < m.current ∨ w.arr = m.current ∧ w.pos + w.len ≤ p

theorem Before.mono (h : m.Before p w) (hq : p ≤ q) : m.Before q w :=
  h.imp_right fun h => ⟨h.1, h.2.trans hq⟩

theorem Before.arr_le (h : m.Before p w) : w.arr ≤ m.current := by
  rcases h with h | h <;> omega

/-! ## 2. Appends -/

variable [Inhabited α] {room : ℕ} {a : α} {spare : ℕ → ℕ → ℕ}

theorem shows_move (room : ℕ) (l : List α) (m : Arrays α) : (m.move room l).Shows l := by
  change l <+: ite (m.current + 1 = m.current + 1) _ _
  rw [if_pos rfl]
  exact List.prefix_append _ _

theorem Shows.put (h : m.Shows l) (hp : p ≤ l.length) :
    (m.put spare p a).Shows (l.take p ++ [a]) := by
  have htake := h.take hp
  unfold Arrays.put
  split
  next hin =>
    unfold capacity at hin
    unfold Shows
    dsimp only
    rw [if_pos rfl, List.set_eq_take_append_cons_drop, if_pos hin, htake]
    exact ⟨_, by rw [List.append_assoc]; rfl⟩
  next hfull =>
    rw [htake]
    exact shows_move _ _ _

theorem before_move (h : w.arr ≤ m.current) : (m.move room l).Before p w :=
  Or.inl (Nat.lt_succ_of_le h)

theorem window_move (h : w.arr ≤ m.current) : (m.move room l).window w = m.window w := by
  unfold window move
  dsimp only
  rw [if_neg (by omega)]

theorem before_put (h : m.Before p w) : (m.put spare q a).Before p w := by
  unfold put
  split
  · exact h
  · exact before_move h.arr_le

/-- **An append at or behind its end** changes no window. -/
theorem window_put (h : m.Before p w) : (m.put spare p a).window w = m.window w := by
  unfold put
  split
  next hin =>
    unfold window
    dsimp only
    split
    next heq =>
      have hend : w.pos + w.len ≤ p := by rcases h with h | h <;> omega
      rw [List.take_drop, List.take_drop, List.take_set_of_le hend]
    next => rfl
  next => exact window_move h.arr_le

theorem window_cons {n : ℕ} (hw : w.len = n + 1) (hin : (m.window w).length = w.len) :
    m.window w = ((m.cells w.arr).getD w.pos default) ::
      m.window { w with pos := w.pos + 1, len := n } := by
  unfold window at hin ⊢
  rw [List.length_take, List.length_drop, hw] at hin
  have hlt : w.pos < (m.cells w.arr).length := by omega
  rw [hw, List.drop_eq_getElem_cons hlt, List.take_succ_cons, List.getD_eq_getElem _ _ hlt]

end Arrays

end Cachey
