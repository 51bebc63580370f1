/-
# Maps whose entries expire

A timed map gives a key a value and, possibly, the time at which the entry ends.  What a reader
sees at a time is the entries that have not ended by then.

* `view`: the map as it is seen at a time.
* `Alike`: two maps that look the same at a time.  Whatever is done to both from then on, they
  look the same (`Alike.put`, `Alike.delete`, `Alike.expireAt`), and so they do later
  (`Alike.later`): an entry that has ended does not come back by waiting.
* `Alike.drop`: an entry that has ended may be taken out at any time.
-/
import Mathlib.Data.Option.Basic
import Mathlib.Order.Lattice
import Mathlib.Tactic.Common

namespace Cachey

/-- For each key a value and the end of the entry, if it has one. -/
abbrev TimedMap (κ ν τ : Type) := κ → Option (ν × Option τ)

namespace TimedMap

variable {κ ν τ : Type} [LinearOrder τ] {now t : τ} {m m' : TimedMap κ ν τ} {k : κ}

/-- The entry has not ended: its end, if any, is strictly later. -/
def current (now : τ) (e : ν × Option τ) : Bool :=
  match e.2 with
  | none => true
  | some x => decide (now < x)

/-- What is seen of a key. -/
def view (now : τ) (m : TimedMap κ ν τ) (k : κ) : Option (ν × Option τ) :=
  (m k).filter (current now)

def empty : TimedMap κ ν τ := fun _ => none

def get (now : τ) (k : κ) (m : TimedMap κ ν τ) : Option ν := (m.view now k).map Prod.fst

/-- Nobody can tell the two maps apart at `now`. -/
def Alike (now : τ) (m m' : TimedMap κ ν τ) : Prop := ∀ k, m.view now k = m'.view now k

section Changes

variable [DecidableEq κ]

/-- A new entry, without an end. -/
def put (k : κ) (v : ν) (m : TimedMap κ ν τ) : TimedMap κ ν τ :=
  Function.update m k (some (v, none))

/-- Take an entry out; whether there was one to be seen. -/
def delete (now : τ) (k : κ) (m : TimedMap κ ν τ) : TimedMap κ ν τ × Bool :=
  match m.view now k with
  | none => (m, false)
  | some _ => (Function.update m k none, true)

/-- Give an entry the end `x`; whether there was one to be seen. -/
def expireAt (now : τ) (k : κ) (x : τ) (m : TimedMap κ ν τ) : TimedMap κ ν τ × Bool :=
  match m.view now k with
  | none => (m, false)
  | some e => (Function.update m k (some (e.1, some x)), true)

end Changes

theorem current_of_le (h : now ≤ t) {e : ν × Option τ} (hc : current t e = true) :
    current now e = true := by
  obtain ⟨v, x⟩ := e
  cases x with
  | none => rfl
  | some x =>
    simp only [current, decide_eq_true_eq] at hc ⊢
    exact lt_of_le_of_lt h hc

/-- What is seen later is what is seen now, without what has ended in between. -/
theorem view_later (h : now ≤ t) (m : TimedMap κ ν τ) (k : κ) :
    m.view t k = (m.view now k).filter (current t) := by
  unfold view
  cases m k with
  | none => rfl
  | some e =>
    by_cases hc : current t e = true
    · simp [Option.filter_some, hc, current_of_le h hc]
    · by_cases hn : current now e = true
      · simp [Option.filter_some, hc, hn]
      · simp [Option.filter_some, hc, hn]

theorem Alike.refl (m : TimedMap κ ν τ) : Alike now m m := fun _ => rfl

theorem Alike.trans {m'' : TimedMap κ ν τ} (h : Alike now m m') (h' : Alike now m' m'') :
    Alike now m m'' := fun k => (h k).trans (h' k)

theorem Alike.get (h : Alike now m m') (k : κ) : m.get now k = m'.get now k := by
  rw [TimedMap.get, TimedMap.get, h k]

theorem Alike.later (h : Alike now m m') (ht : now ≤ t) : Alike t m m' := by
  intro k
  rw [view_later ht, view_later ht, h k]

variable [DecidableEq κ]

theorem view_update (k k' : κ) (e : Option (ν × Option τ)) (m : TimedMap κ ν τ) :
    view now (Function.update m k e) k' = if k' = k then e.filter (current now)
      else m.view now k' := by
  unfold view
  by_cases hk : k' = k
  · subst hk
    simp
  · simp [hk]

theorem Alike.update (h : Alike now m m') (k : κ) (e : Option (ν × Option τ)) :
    Alike now (Function.update m k e) (Function.update m' k e) := by
  intro k'
  rw [view_update, view_update, h k']

theorem Alike.drop (h : m.view now k = none) : Alike now (Function.update m k none) m := by
  intro k'
  rw [view_update]
  split
  next hk => rw [hk, h]; rfl
  next => rfl

theorem Alike.put (h : Alike now m m') (k : κ) (v : ν) :
    Alike now (m.put k v) (m'.put k v) := h.update k _

theorem Alike.delete (h : Alike now m m') (k : κ) :
    Alike now (m.delete now k).1 (m'.delete now k).1 ∧
      (m.delete now k).2 = (m'.delete now k).2 := by
  unfold TimedMap.delete
  rw [← h k]
  cases m.view now k with
  | none => exact ⟨h, rfl⟩
  | some e => exact ⟨h.update k none, rfl⟩

theorem Alike.expireAt (h : Alike now m m') (k : κ) (x : τ) :
    Alike now (m.expireAt now k x).1 (m'.expireAt now k x).1 ∧
      (m.expireAt now k x).2 = (m'.expireAt now k x).2 := by
  unfold TimedMap.expireAt
  rw [← h k]
  cases m.view now k with
  | none => exact ⟨h, rfl⟩
  | some e => exact ⟨h.update k _, rfl⟩

end TimedMap

end Cachey
