/-
# Files of lines

A file in which every line ends with a mark.  `split` cuts a file into its lines and what stands
behind the last mark, the unfinished line.  Nothing is lost (`join_split`), and a file that starts
with whole lines is split there (`split_join`), whatever follows.
-/
import Mathlib.Data.List.Basic

namespace Cachey.Lines

variable {β : Type} (mark : β)

def join (ls : List (List β)) : List β := ls.flatMap fun l => l ++ [mark]

@[simp] theorem join_nil : join mark [] = [] := rfl

@[simp] theorem join_cons (l : List β) (ls : List (List β)) :
    join mark (l :: ls) = l ++ mark :: join mark ls := by
  simp [join]

@[simp] theorem join_append (ls ls' : List (List β)) :
    join mark (ls ++ ls') = join mark ls ++ join mark ls' := by
  simp [join]

variable [DecidableEq β]

/-- The lines, and the unfinished line. -/
def split : List β → List (List β) × List β
  | [] => ([], [])
  | b :: bs =>
    if b = mark then ([] :: (split bs).1, (split bs).2)
    else match (split bs).1 with
      | [] => ([], b :: (split bs).2)
      | l :: ls => ((b :: l) :: ls, (split bs).2)

variable {mark}

theorem split_unfinished : ∀ {t : List β}, mark ∉ t → split mark t = ([], t)
  | [], _ => rfl
  | b :: bs, h => by
    rw [List.mem_cons, not_or] at h
    unfold split
    rw [if_neg (Ne.symm h.1), split_unfinished h.2]

theorem split_line : ∀ {l : List β} (rest : List β), mark ∉ l →
    split mark (l ++ mark :: rest) = (l :: (split mark rest).1, (split mark rest).2)
  | [], rest, _ => by
    rw [List.nil_append, split, if_pos rfl]
  | b :: bs, rest, h => by
    rw [List.mem_cons, not_or] at h
    rw [List.cons_append, split, if_neg (Ne.symm h.1), split_line rest h.2]

theorem split_join {ls : List (List β)} (h : ∀ l ∈ ls, mark ∉ l) (rest : List β) :
    split mark (join mark ls ++ rest) = (ls ++ (split mark rest).1, (split mark rest).2) := by
  induction ls with
  | nil => rfl
  | cons l ls ih =>
    have hrest := ih fun l' hl' => h l' (List.mem_cons_of_mem _ hl')
    rw [join_cons, List.append_assoc, List.cons_append,
      split_line _ (h l List.mem_cons_self), hrest]
    rfl

variable (mark)

theorem join_split : ∀ data : List β, join mark (split mark data).1 ++ (split mark data).2 = data
  | [] => rfl
  | b :: bs => by
    have ih := join_split bs
    unfold split
    split
    next hb =>
      rw [join_cons, List.nil_append, List.cons_append, ih, hb]
    next =>
      split
      next hnone =>
        rw [hnone, join_nil, List.nil_append] at ih
        rw [join_nil, List.nil_append, ih]
      next l ls hsome =>
        rw [hsome, join_cons] at ih
        rw [join_cons, List.cons_append, List.cons_append, ih]

theorem unmarked : ∀ data : List β,
    (∀ l ∈ (split mark data).1, mark ∉ l) ∧ mark ∉ (split mark data).2
  | [] => ⟨fun _ h => absurd h List.not_mem_nil, List.not_mem_nil⟩
  | b :: bs => by
    obtain ⟨hlines, htail⟩ := unmarked bs
    unfold split
    split
    next =>
      refine ⟨fun l hl => ?_, htail⟩
      rcases List.mem_cons.mp hl with rfl | hl
      · exact List.not_mem_nil
      · exact hlines l hl
    next hb =>
      split
      next =>
        refine ⟨fun _ h => absurd h List.not_mem_nil, ?_⟩
        rw [List.mem_cons, not_or]
        exact ⟨Ne.symm hb, htail⟩
      next l ls hsome =>
        rw [hsome] at hlines
        refine ⟨fun l' hl' => ?_, htail⟩
        rcases List.mem_cons.mp hl' with rfl | hl'
        · rw [List.mem_cons, not_or]
          exact ⟨Ne.symm hb, hlines l List.mem_cons_self⟩
        · exact hlines l' (List.mem_cons_of_mem _ hl')

end Cachey.Lines
