/-
# Machines: guarded transition functions

A machine is a function `act` on states, driven by labels, with a guard saying which labels can
happen in which state.  Its runs are the paths of the induced step relation.  Two ways to reason
about runs:

* an INVARIANT that every guarded step keeps holds along every run (`Steps.invariant`);
* a SCHEDULE -- a list of moves, each of which may look at the current state to choose its
  label -- is a run as soon as the guards along it check (`steps_of_plays`).
-/
import Mathlib.Logic.Relation

namespace Cachey

/-- A transition function with a guard. -/
structure Machine (S L : Type) where
  enabled : S → L → Prop
  act : S → L → S

namespace Machine

variable {S L : Type} (M : Machine S L)

def Step (s s' : S) : Prop := ∃ l, M.enabled s l ∧ s' = M.act s l

def Steps (s s' : S) : Prop := Relation.ReflTransGen M.Step s s'

/-- The machine in which every step also meets `G`. -/
def restrict (G : S → L → Prop) : Machine S L where
  enabled := fun s l => M.enabled s l ∧ G s l
  act := M.act

variable {M}

theorem Steps.refl (s : S) : M.Steps s s := Relation.ReflTransGen.refl

theorem Steps.head {s s' : S} {l : L} (hl : M.enabled s l) (h : M.Steps (M.act s l) s') :
    M.Steps s s' :=
  Relation.ReflTransGen.head ⟨l, hl, rfl⟩ h

theorem Steps.invariant {P : S → Prop} (hstep : ∀ s l, P s → M.enabled s l → P (M.act s l))
    {s s' : S} (h : M.Steps s s') (h₀ : P s) : P s' := by
  induction h with
  | refl => exact h₀
  | tail _ hs ih =>
    obtain ⟨l, hl, rfl⟩ := hs
    exact hstep _ l ih hl

variable (M)

/-- The state a schedule leads to. -/
def play (s : S) : List (S → L) → S
  | [] => s
  | m :: ms => play (M.act s (m s)) ms

/-- Every move of the schedule can happen when its turn comes. -/
def plays [∀ s l, Decidable (M.enabled s l)] (s : S) : List (S → L) → Bool
  | [] => true
  | m :: ms => decide (M.enabled s (m s)) && plays (M.act s (m s)) ms

variable {M}

theorem steps_of_plays [∀ s l, Decidable (M.enabled s l)] : ∀ (ms : List (S → L)) (s : S),
    M.plays s ms = true → M.Steps s (M.play s ms)
  | [], s, _ => Steps.refl s
  | m :: ms, s, h => by
    simp only [plays, Bool.and_eq_true, decide_eq_true_eq] at h
    exact (steps_of_plays ms _ h.2).head h.1

end Machine

end Cachey
