/-
# Reading up to a mark through a buffer

`bufio.Reader.ReadSlice` of Go: it returns what stands before a mark, and the mark, if the buffer
can hold both; a full buffer otherwise.  The input is what the connection still delivers before it
ends, in whatever portions: the reader fills its buffer before it gives up.
-/
import Mathlib.Data.List.Basic

namespace Cachey.SliceReader

variable {β : Type} [DecidableEq β] {size : ℕ} {mark : β} {line rest : List β}

/-- Why the mark was not reached. -/
inductive Short where
  | bufferFull
  | ended
deriving DecidableEq, Repr

/-- `ReadSlice` with a buffer of `size`: what is returned, why it is short, and what is left. -/
def readSlice (size : ℕ) (mark : β) (input : List β) : List β × Option Short × List β :=
  if mark ∈ input.take size then
    (input.takeWhile (· ≠ mark) ++ [mark], none, (input.dropWhile (· ≠ mark)).tail)
  else if size ≤ input.length then (input.take size, some .bufferFull, input.drop size)
  else (input, some .ended, [])

theorem takeWhile_line (h : mark ∉ line) :
    (line ++ mark :: rest).takeWhile (· ≠ mark) = line := by
  rw [List.takeWhile_append_of_pos fun x hx => by simpa using ne_of_mem_of_not_mem hx h,
    List.takeWhile_cons_of_neg (by simp), List.append_nil]

theorem dropWhile_line (h : mark ∉ line) :
    (line ++ mark :: rest).dropWhile (· ≠ mark) = mark :: rest := by
  rw [List.dropWhile_append_of_pos fun x hx => by simpa using ne_of_mem_of_not_mem hx h,
    List.dropWhile_cons_of_neg (by simp)]

theorem readSlice_short (h : mark ∉ line) (hlen : line.length < size) :
    readSlice size mark (line ++ mark :: rest) = (line ++ [mark], none, rest) := by
  have hin : mark ∈ (line ++ mark :: rest).take size := by
    rw [List.take_append]
    obtain ⟨k, hk⟩ : ∃ k, size - line.length = k + 1 := ⟨size - line.length - 1, by omega⟩
    rw [hk, List.take_succ_cons]
    exact List.mem_append_right _ List.mem_cons_self
  unfold readSlice
  rw [if_pos hin, takeWhile_line h, dropWhile_line h]
  rfl

theorem readSlice_long (h : mark ∉ line) (hlen : size ≤ line.length) :
    readSlice size mark (line ++ mark :: rest) =
      (line.take size, some .bufferFull, line.drop size ++ mark :: rest) := by
  have htake : (line ++ mark :: rest).take size = line.take size :=
    List.take_append_of_le_length hlen
  unfold readSlice
  rw [htake, if_neg fun hin => h (List.mem_of_mem_take hin), if_pos (by simp; omega),
    List.drop_append_of_le_length hlen]

end Cachey.SliceReader
