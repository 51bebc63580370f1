/-
# Self-delimiting byte codes

A development that takes an encoding as a parameter, with laws, owes the reader one encoding that
has them.  A `Code` writes a value as bytes such that a reader knows where the value ends; codes
are put together from codes of the parts.  All of them write the two bytes 0 and 1 only, so that
any other byte can serve as a mark.

* `dec_enc`: reading what was written, whatever follows;
* `enc_dec`: nothing but an encoding is read;
* `parse_eq_some_iff`: a whole string parses exactly when it is an encoding, so that a proper
  beginning of an encoding does not (`parse_initial`).
-/
import Mathlib.Data.List.Basic

namespace Cachey

/-- A self-delimiting code of `α` over the bytes 0 and 1. -/
structure Code (α : Type) where
  enc : α → List UInt8
  dec : List UInt8 → Option (α × List UInt8)
  dec_enc : ∀ a rest, dec (enc a ++ rest) = some (a, rest)
  enc_dec : ∀ {l a rest}, dec l = some (a, rest) → l = enc a ++ rest
  binary : ∀ a, ∀ b ∈ enc a, b = 0 ∨ b = 1

namespace Code

variable {α β : Type} {a : α}

/-! ## 1. Codes and how to combine them -/

/-- Read ones up to the first zero. -/
def decNat : List UInt8 → Option (ℕ × List UInt8)
  | [] => none
  | b :: l =>
    if b = 0 then some (0, l)
    else if b = 1 then (decNat l).map fun x => (x.1 + 1, x.2)
    else none

def nat : Code ℕ where
  enc n := List.replicate n 1 ++ [0]
  dec := decNat
  dec_enc n rest := by
    induction n with
    | zero => simp [decNat]
    | succ n ih =>
      rw [List.replicate_succ, List.cons_append, List.cons_append, decNat, ih]
      simp
  enc_dec {l n rest} h := by
    induction l generalizing n rest with
    | nil => simp [decNat] at h
    | cons b l ih =>
      rw [decNat] at h
      split at h
      next hb =>
        cases h
        simp [hb]
      next =>
        split at h
        next hb =>
          obtain ⟨⟨m, r⟩, hl, heq⟩ := Option.map_eq_some_iff.mp h
          cases heq
          rw [ih hl, hb, List.replicate_succ]
          rfl
        next => cases h
  binary n b hb := by
    rcases List.mem_append.mp hb with hb | hb
    · exact Or.inr (List.eq_of_mem_replicate hb)
    · exact Or.inl (List.mem_singleton.mp hb)

/-- Two values, one after the other. -/
def pair (A : Code α) (B : Code β) : Code (α × β) where
  enc x := A.enc x.1 ++ B.enc x.2
  dec l := (A.dec l).bind fun a => (B.dec a.2).map fun b => ((a.1, b.1), b.2)
  dec_enc x rest := by
    rw [List.append_assoc, A.dec_enc, Option.bind_some, B.dec_enc]
    rfl
  enc_dec {l x rest} h := by
    obtain ⟨⟨a, l₁⟩, ha, h⟩ := Option.bind_eq_some_iff.mp h
    obtain ⟨⟨b, l₂⟩, hb, heq⟩ := Option.map_eq_some_iff.mp h
    cases heq
    have hl₁ : l₁ = B.enc b ++ l₂ := B.enc_dec hb
    rw [A.enc_dec ha, hl₁, List.append_assoc]
  binary x b hb := by
    rcases List.mem_append.mp hb with hb | hb
    · exact A.binary x.1 b hb
    · exact B.binary x.2 b hb

/-- The values of `α`, written as those of `β` that stand for them. -/
def through (B : Code β) (f : α → β) (g : β → Option α) (hgf : ∀ a, g (f a) = some a)
    (hfg : ∀ {b a}, g b = some a → f a = b) : Code α where
  enc a := B.enc (f a)
  dec l := (B.dec l).bind fun b => (g b.1).map fun a => (a, b.2)
  dec_enc a rest := by
    rw [B.dec_enc, Option.bind_some, hgf]
    rfl
  enc_dec {l a rest} h := by
    obtain ⟨⟨b, l₁⟩, hb, h⟩ := Option.bind_eq_some_iff.mp h
    obtain ⟨a', ha, heq⟩ := Option.map_eq_some_iff.mp h
    cases heq
    rw [B.enc_dec hb, hfg ha]
  binary a := B.binary (f a)

/-- Read exactly `n` values. -/
def decMany (A : Code α) : ℕ → List UInt8 → Option (List α × List UInt8)
  | 0, l => some ([], l)
  | n + 1, l => (A.dec l).bind fun a => (decMany A n a.2).map fun as => (a.1 :: as.1, as.2)

theorem decMany_flatMap (A : Code α) : ∀ (as : List α) (rest : List UInt8),
    decMany A as.length (as.flatMap A.enc ++ rest) = some (as, rest)
  | [], rest => by simp [decMany]
  | a :: as, rest => by
    rw [List.flatMap_cons, List.append_assoc, List.length_cons, decMany, A.dec_enc,
      Option.bind_some, decMany_flatMap A as rest]
    rfl

theorem of_decMany (A : Code α) : ∀ (n : ℕ) (l : List UInt8) {as : List α} {rest : List UInt8},
    decMany A n l = some (as, rest) → as.length = n ∧ l = as.flatMap A.enc ++ rest
  | 0, l, as, rest, h => by
    cases h
    simp
  | n + 1, l, as, rest, h => by
    obtain ⟨⟨a, l₁⟩, ha, h⟩ := Option.bind_eq_some_iff.mp h
    obtain ⟨⟨as', l₂⟩, has, heq⟩ := Option.map_eq_some_iff.mp h
    cases heq
    obtain ⟨hlen, hl⟩ := of_decMany A n l₁ has
    refine ⟨by simp [hlen], ?_⟩
    rw [A.enc_dec ha, hl, List.flatMap_cons, List.append_assoc]

/-- A list: its length, then its elements. -/
def list (A : Code α) : Code (List α) where
  enc as := nat.enc as.length ++ as.flatMap A.enc
  dec l := (nat.dec l).bind fun n => decMany A n.1 n.2
  dec_enc as rest := by
    rw [List.append_assoc, nat.dec_enc, Option.bind_some]
    exact decMany_flatMap A as rest
  enc_dec {l as rest} h := by
    obtain ⟨⟨n, l₁⟩, hn, h⟩ := Option.bind_eq_some_iff.mp h
    obtain ⟨hlen, hl⟩ := of_decMany A n l₁ h
    rw [nat.enc_dec hn, hl, hlen, List.append_assoc]
  binary as b hb := by
    rcases List.mem_append.mp hb with hb | hb
    · exact nat.binary _ b hb
    · obtain ⟨a, _, ha⟩ := List.mem_flatMap.mp hb
      exact A.binary a b ha

/-! ## 2. Numbers and text -/

/-- An integer: its sign and its size; there is no negative zero. -/
def int : Code Int :=
  (nat.pair nat).through
    (fun z => if 0 ≤ z then (0, z.toNat) else (1, (-z).toNat))
    (fun x => if x.1 = 0 then some (x.2 : Int)
      else if x.1 = 1 ∧ 0 < x.2 then some (-(x.2 : Int)) else none)
    (fun z => by
      by_cases hz : 0 ≤ z
      · simp only [hz, if_true, Int.toNat_of_nonneg]
      · have hpos : 0 < (-z).toNat := by omega
        have hback : -(((-z).toNat : ℕ) : Int) = z := by omega
        simp only [hz, if_false, Nat.one_ne_zero, hpos, and_self, if_true, hback])
    (fun {b z} h => by
      obtain ⟨s, n⟩ := b
      by_cases hs : s = 0
      · simp only [hs, if_true, Option.some.injEq] at h
        subst h
        simp [hs]
      · simp only [hs, if_false] at h
        split at h
        next hone =>
          obtain ⟨rfl, hpos⟩ := hone
          cases h
          have hneg : ¬ 0 ≤ -(n : Int) := by omega
          simp only [hneg, if_false]
          congr 1
          omega
        next => cases h)

def byte : Code UInt8 :=
  nat.through UInt8.toNat (fun n => if n < 256 then some (UInt8.ofNat n) else none)
    (fun b => by simp [b.toNat_lt])
    (fun {n b} h => by
      split at h
      next hn =>
        cases h
        simp [Nat.mod_eq_of_lt hn]
      next => cases h)

def char : Code Char :=
  nat.through Char.toNat (fun n => if n.isValidChar then some (Char.ofNat n) else none)
    (fun c => by
      have hvalid : c.toNat.isValidChar := c.valid
      rw [if_pos hvalid, Char.ofNat_toNat])
    (fun {n c} h => by
      split at h
      next hn =>
        cases h
        unfold Char.ofNat
        rw [dif_pos hn]
        rfl
      next => cases h)

def text : Code String :=
  (list char).through String.toList (fun l => some (String.ofList l))
    (fun s => by simp)
    (fun {l s} h => by
      cases h
      simp)

/-! ## 3. Whole strings -/

/-- The value a whole string encodes. -/
def parse (A : Code α) (l : List UInt8) : Option α :=
  match A.dec l with
  | some (a, []) => some a
  | _ => none

theorem parse_enc (A : Code α) (a : α) : A.parse (A.enc a) = some a := by
  have h := A.dec_enc a []
  rw [List.append_nil] at h
  simp [parse, h]

theorem parse_eq_some_iff (A : Code α) {l : List UInt8} : A.parse l = some a ↔ l = A.enc a := by
  constructor
  · intro h
    unfold parse at h
    split at h
    next hdec =>
      cases h
      simpa using A.enc_dec hdec
    next => cases h
  · rintro rfl
    exact A.parse_enc a

theorem parse_initial (A : Code α) {p q : List UInt8} (h : p ++ q = A.enc a) (hq : q ≠ []) :
    A.parse p = none := by
  cases hp : A.parse p with
  | none => rfl
  | some b =>
    have hdec := A.dec_enc b q
    rw [← A.parse_eq_some_iff.mp hp, h] at hdec
    have hself := A.dec_enc a []
    rw [List.append_nil, hdec] at hself
    cases hself
    exact absurd rfl hq

end Code

end Cachey
