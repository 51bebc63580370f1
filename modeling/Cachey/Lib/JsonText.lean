/-
# JSON texts

What Go's `json.Marshal` writes, byte by byte: numbers in decimal, strings with the escapes of
`appendString` (HTML escaping is on), byte slices in base64, arrays and objects without blanks.

A text carries that it is one line: control characters are escaped, and every byte of a longer
UTF-8 sequence is at least 128.  How long a text is follows from the sizes of its parts.
-/
import Mathlib.Algebra.BigOperators.Group.List.Basic
import Mathlib.Algebra.GroupWithZero.Nat

namespace Cachey

/-- A text without a line feed. -/
structure JsonText where
  bytes : List UInt8
  oneLine : 10 ∉ bytes

namespace JsonText

def size (t : JsonText) : ℕ := t.bytes.length

/-! ## 1. Bytes that are no line feed -/

theorem ofNat_ne {k : ℕ} (hlt : k < 256) (hne : k ≠ 10) : (10 : UInt8) ≠ UInt8.ofNat k := by
  intro h
  have hval := congrArg UInt8.toNat h
  rw [UInt8.toNat_ofNat', Nat.mod_eq_of_lt hlt] at hval
  exact hne hval.symm

def hexDigit (k : ℕ) : UInt8 := UInt8.ofNat (if k < 10 then 48 + k else 87 + k % 16)

theorem hexDigit_ne (k : ℕ) : (10 : UInt8) ≠ hexDigit k := by
  unfold hexDigit
  split
  · exact ofNat_ne (by omega) (by omega)
  · exact ofNat_ne (by omega) (by omega)

/-- A character of the base64 alphabet. -/
def sextet (k : ℕ) : UInt8 :=
  UInt8.ofNat (if k < 26 then 65 + k else if k < 52 then 71 + k else if k < 62 then k - 4
    else if k = 62 then 43 else 47)

theorem sextet_ne (k : ℕ) : (10 : UInt8) ≠ sextet k := by
  refine ofNat_ne ?_ ?_ <;> split_ifs <;> omega

theorem utf8_oneLine {c : Char} (h : 32 ≤ c.toNat) : 10 ∉ String.utf8EncodeChar c := by
  change 32 ≤ c.val.toNat at h
  unfold String.utf8EncodeChar
  dsimp only
  split_ifs <;> simp only [List.mem_cons, List.not_mem_nil, or_false, not_or]
  · exact ofNat_ne (by omega) (by omega)
  · exact ⟨ofNat_ne (by omega) (by omega), ofNat_ne (by omega) (by omega)⟩
  · exact ⟨ofNat_ne (by omega) (by omega), ofNat_ne (by omega) (by omega),
      ofNat_ne (by omega) (by omega)⟩
  · exact ⟨ofNat_ne (by omega) (by omega), ofNat_ne (by omega) (by omega),
      ofNat_ne (by omega) (by omega), ofNat_ne (by omega) (by omega)⟩

/-! ## 2. Values -/

def null : JsonText where
  bytes := [110, 117, 108, 108]
  oneLine := by decide

def number (n : ℕ) : JsonText where
  bytes := (Nat.toDigits 10 n).map fun c => UInt8.ofNat c.toNat
  oneLine := by
    intro h
    obtain ⟨c, hc, heq⟩ := List.mem_map.mp h
    have hdigit := Nat.isDigit_of_mem_toDigits (by decide) (by decide) hc
    obtain ⟨hlo, hhi⟩ : 48 ≤ c.toNat ∧ c.toNat ≤ 57 := by
      simpa [Char.isDigit, UInt32.le_iff_toNat_le] using hdigit
    exact ofNat_ne (by omega) (by omega) heq.symm

/-- How many digits a number has. -/
def digits (n : ℕ) : ℕ := (Nat.toDigits 10 n).length

theorem size_number (n : ℕ) : (number n).size = digits n := List.length_map _

theorem digits_le {n k : ℕ} (hk : 0 < k) (h : n < 10 ^ k) : digits n ≤ k :=
  (Nat.length_toDigits_le_iff (by decide) hk).mpr h

/-- What one character of a string becomes. -/
def escape (c : Char) : List UInt8 :=
  if c.toNat = 34 ∨ c.toNat = 92 then [92, UInt8.ofNat c.toNat]
  else if c.toNat = 8 then [92, 98]
  else if c.toNat = 12 then [92, 102]
  else if c.toNat = 10 then [92, 110]
  else if c.toNat = 13 then [92, 114]
  else if c.toNat = 9 then [92, 116]
  else if c.toNat < 32 ∨ c.toNat = 60 ∨ c.toNat = 62 ∨ c.toNat = 38 then
    [92, 117, 48, 48, hexDigit (c.toNat / 16), hexDigit (c.toNat % 16)]
  -- the line separators of Unicode
  else if c.toNat = 0x2028 ∨ c.toNat = 0x2029 then
    [92, 117, 50, 48, 50, hexDigit (c.toNat % 16)]
  else String.utf8EncodeChar c

theorem escape_oneLine (c : Char) : 10 ∉ escape c := by
  unfold escape
  split
  next h =>
    simp only [List.mem_cons, List.not_mem_nil, or_false, not_or]
    exact ⟨by decide, ofNat_ne (by omega) (by omega)⟩
  iterate 5
    split
    · decide
  split
  · simp [hexDigit_ne]
  split
  · simp [hexDigit_ne]
  · exact utf8_oneLine (by omega)

def string (s : String) : JsonText where
  bytes := 34 :: (s.toList.flatMap escape ++ [34])
  oneLine := by
    simp only [List.mem_cons, List.mem_append, List.mem_flatMap, List.not_mem_nil, or_false, not_or]
    exact ⟨by decide, fun ⟨c, _, hc⟩ => escape_oneLine c hc, by decide⟩

/-- The size of a string between its quotes, and they. -/
def quoted (s : String) : ℕ := 2 + (s.toList.map fun c => (escape c).length).sum

theorem size_string (s : String) : (string s).size = quoted s := by
  change (34 :: (s.toList.flatMap escape ++ [34])).length = _
  rw [List.length_cons, List.length_append, List.length_flatMap, quoted]
  simp only [List.length_cons, List.length_nil]
  omega

def base64Of : List UInt8 → List UInt8
  | [] => []
  | [a] => [sextet (a.toNat / 4), sextet (a.toNat % 4 * 16), 61, 61]
  | [a, b] =>
    [sextet (a.toNat / 4), sextet (a.toNat % 4 * 16 + b.toNat / 16), sextet (b.toNat % 16 * 4), 61]
  | a :: b :: c :: rest =>
    sextet (a.toNat / 4) :: sextet (a.toNat % 4 * 16 + b.toNat / 16) ::
      sextet (b.toNat % 16 * 4 + c.toNat / 64) :: sextet (c.toNat % 64) :: base64Of rest

theorem base64Of_oneLine : ∀ bs : List UInt8, 10 ∉ base64Of bs
  | [] => List.not_mem_nil
  | [_] => by simp [base64Of, sextet_ne]
  | [_, _] => by simp [base64Of, sextet_ne]
  | _ :: _ :: _ :: rest => by simp [base64Of, sextet_ne, base64Of_oneLine rest]

theorem length_base64Of : ∀ bs : List UInt8, (base64Of bs).length = 4 * ((bs.length + 2) / 3)
  | [] => rfl
  | [_] => by simp [base64Of]
  | [_, _] => by simp [base64Of]
  | _ :: _ :: _ :: rest => by
    have ih := length_base64Of rest
    simp only [base64Of, List.length_cons]
    omega

/-- A byte slice that is not nil. -/
def base64 (bs : List UInt8) : JsonText where
  bytes := 34 :: (base64Of bs ++ [34])
  oneLine := by
    simp only [List.mem_cons, List.mem_append, List.not_mem_nil, or_false, not_or]
    exact ⟨by decide, base64Of_oneLine bs, by decide⟩

theorem size_base64 (bs : List UInt8) : (base64 bs).size = 2 + 4 * ((bs.length + 2) / 3) := by
  change (34 :: (base64Of bs ++ [34])).length = _
  rw [List.length_cons, List.length_append, length_base64Of]
  simp only [List.length_cons, List.length_nil]
  omega

/-! ## 3. Arrays and objects -/

/-- The parts, with a comma between any two. -/
def commas : List JsonText → List UInt8
  | [] => []
  | [t] => t.bytes
  | t :: t' :: ts => t.bytes ++ 44 :: commas (t' :: ts)

theorem commas_oneLine : ∀ ts : List JsonText, 10 ∉ commas ts
  | [] => List.not_mem_nil
  | [t] => t.oneLine
  | t :: t' :: ts => by
    simp only [commas, List.mem_append, List.mem_cons, not_or]
    exact ⟨t.oneLine, by decide, commas_oneLine (t' :: ts)⟩

theorem length_commas : ∀ ts : List JsonText, ts ≠ [] →
    (commas ts).length + 1 = (ts.map fun t => t.size + 1).sum
  | [], h => absurd rfl h
  | [t], _ => by simp [commas, size]
  | t :: t' :: ts, _ => by
    have ih := length_commas (t' :: ts) (List.cons_ne_nil _ _)
    rw [List.map_cons, List.sum_cons, ← ih]
    simp only [commas, List.length_append, List.length_cons, size]
    omega

def between (left right : UInt8) (h : 10 ≠ left ∧ 10 ≠ right) (ts : List JsonText) : JsonText where
  bytes := left :: (commas ts ++ [right])
  oneLine := by
    simp only [List.mem_cons, List.mem_append, List.not_mem_nil, or_false, not_or]
    exact ⟨h.1, commas_oneLine ts, h.2⟩

/-- Each part and the comma or bracket behind it; an empty one is the two brackets. -/
theorem size_between (left right : UInt8) (h : 10 ≠ left ∧ 10 ≠ right) (ts : List JsonText) :
    (between left right h ts).size = 1 + max 1 (ts.map fun t => t.size + 1).sum := by
  change (left :: (commas ts ++ [right])).length = _
  rw [List.length_cons, List.length_append]
  by_cases hts : ts = []
  · subst hts
    rfl
  · rw [← length_commas ts hts]
    simp only [List.length_cons, List.length_nil]
    omega

def array (items : List JsonText) : JsonText := between 91 93 (by decide) items

theorem size_array (items : List JsonText) :
    (array items).size = 1 + max 1 (items.map fun t => t.size + 1).sum := size_between _ _ _ _

/-- A field of an object: its name, a colon and its value. -/
def field (name : String) (value : JsonText) : JsonText where
  bytes := (string name).bytes ++ 58 :: value.bytes
  oneLine := by
    simp only [List.mem_append, List.mem_cons, not_or]
    exact ⟨(string name).oneLine, by decide, value.oneLine⟩

theorem size_field (name : String) (value : JsonText) :
    (field name value).size = quoted name + 1 + value.size := by
  rw [← size_string]
  change ((string name).bytes ++ 58 :: value.bytes).length = _
  rw [List.length_append, List.length_cons]
  simp only [size]
  omega

def object (fields : List (String × JsonText)) : JsonText :=
  between 123 125 (by decide) (fields.map fun f => field f.1 f.2)

theorem size_object (fields : List (String × JsonText)) :
    (object fields).size = 1 + max 1 (fields.map fun f => quoted f.1 + f.2.size + 2).sum := by
  rw [object, size_between, List.map_map]
  congr 4
  funext f
  rw [Function.comp_apply, size_field]
  omega

end JsonText

end Cachey
