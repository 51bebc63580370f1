/-
# Finite maps and the lookups a Go program makes in them

A Go map is modelled by Mathlib's `AList`: a list of entries with distinct keys.  The entry
order is the model's, not the program's -- Go iterates a map in an order of its own choosing.
A function that reads a map entry by entry and whose result could depend on that order takes
the order as an argument (`Iteration`), a reordering that is a permutation by construction.
-/
import Mathlib.Algebra.GroupWithZero.Nat
import Mathlib.Data.Finset.Card
import Mathlib.Data.List.AList

namespace Cachey

/-- A finite map from `K` to `V`. -/
abbrev GoMap (K V : Type) := AList (fun _ : K => V)

namespace GoMap

variable {K V X : Type} [DecidableEq K] {m : GoMap K V} {v : V} {k k' : K}

/-- Equality of maps is decided on the entry lists, by a term that evaluates. -/
instance [DecidableEq V] : DecidableEq (GoMap K V) := fun a b =>
  decidable_of_iff (a.entries = b.entries) AList.ext_iff.symm

/-- The values held by the map, in entry order. -/
def values (m : GoMap K V) : List V := m.entries.map (·.2)

/-- The number of entries, Go's `len`. -/
def len (m : GoMap K V) : Nat := m.entries.length

/-- `m[k] = append(m[k], x)`: an absent key counts as the empty list. -/
def push {X : Type} (m : GoMap K (List X)) (k : K) (x : X) : GoMap K (List X) :=
  m.insert k ((m.lookup k).getD [] ++ [x])

theorem mem_values_iff : v ∈ m.values ↔ ∃ k, m.lookup k = some v := by
  simp only [values, List.mem_map]
  constructor
  · rintro ⟨⟨k, w⟩, hm, rfl⟩
    exact ⟨k, AList.mem_lookup_iff.mpr hm⟩
  · rintro ⟨k, hk⟩
    exact ⟨⟨k, v⟩, AList.mem_lookup_iff.mp hk, rfl⟩

theorem mem_values_of_lookup (h : m.lookup k = some v) : v ∈ m.values :=
  mem_values_iff.mpr ⟨k, h⟩

theorem lookup_insert_of : (m.insert k v).lookup k' = if k' = k then some v else m.lookup k' := by
  by_cases h : k' = k
  · subst h; simp
  · simp [h, AList.lookup_insert_ne h]

theorem lookup_erase_of : (m.erase k).lookup k' = if k' = k then none else m.lookup k' := by
  by_cases h : k' = k
  · subst h; simp
  · simp [h, AList.lookup_erase_ne h]

theorem lookup_foldl_insert : ∀ (ks : List K) (m : GoMap K V),
    (ks.foldl (fun m k => m.insert k v) m).lookup k' = if k' ∈ ks then some v else m.lookup k'
  | [], m => by simp
  | k :: ks, m => by
    rw [List.foldl_cons, lookup_foldl_insert ks, lookup_insert_of]
    by_cases h₁ : k' ∈ ks
    · simp [h₁]
    · by_cases h₂ : k' = k <;> simp [h₁, h₂]

theorem lookup_foldl_erase : ∀ (ks : List K) (m : GoMap K V),
    (ks.foldl (fun m k => m.erase k) m).lookup k' = if k' ∈ ks then none else m.lookup k'
  | [], m => by simp
  | k :: ks, m => by
    rw [List.foldl_cons, lookup_foldl_erase ks, lookup_erase_of]
    by_cases h₁ : k' ∈ ks
    · simp [h₁]
    · by_cases h₂ : k' = k <;> simp [h₁, h₂]

theorem lookup_push {m : GoMap K (List X)} {x : X} :
    (m.push k x).lookup k' =
      if k' = k then some ((m.lookup k).getD [] ++ [x]) else m.lookup k' :=
  lookup_insert_of

theorem sum_lengths_erase (m : GoMap K (List X)) (k : K) :
    (m.values.map List.length).sum =
      ((m.lookup k).getD []).length + ((values (m.erase k)).map List.length).sum := by
  suffices h : ∀ l : List (Sigma fun _ : K => List X),
      ((l.map (·.2)).map List.length).sum = ((l.dlookup k).getD []).length +
        (((l.kerase k).map (·.2)).map List.length).sum from h m.entries
  intro l
  induction l with
  | nil => rfl
  | cons e l ih =>
    obtain ⟨k', v⟩ := e
    by_cases hk : k = k'
    · subst hk
      simp
    · have hlookup : (⟨k', v⟩ :: l).dlookup k = l.dlookup k := List.dlookup_cons_ne l ⟨k', v⟩ hk
      have herase : (⟨k', v⟩ :: l).kerase k = ⟨k', v⟩ :: l.kerase k := List.kerase_cons_ne hk
      rw [hlookup, herase]
      simp only [List.map_cons, List.sum_cons, ih]
      omega

theorem mem_iff_lookup : k ∈ m ↔ ∃ v, m.lookup k = some v := by
  rw [← AList.lookup_isSome, Option.isSome_iff_exists]

/-- The keys whose values pass a test: as many as the values that do. -/
theorem exists_keys_of_values (m : GoMap K V) (p : V → Bool) :
    ∃ ks : Finset K, ks.card = (m.values.filter p).length ∧
      ∀ k ∈ ks, ∃ v, m.lookup k = some v ∧ p v = true := by
  refine ⟨((m.entries.filter fun e => p e.2).map (·.1)).toFinset, ?_, fun k hk => ?_⟩
  · have hnodup : ((m.entries.filter fun e => p e.2).map (·.1)).Nodup :=
      List.Nodup.sublist (List.filter_sublist.map _) m.nodupKeys
    rw [List.toFinset_card_of_nodup hnodup, List.length_map, values, List.filter_map,
      List.length_map]
    rfl
  · obtain ⟨e, he, rfl⟩ := List.mem_map.mp (List.mem_toFinset.mp hk)
    obtain ⟨he, hp⟩ := List.mem_filter.mp he
    exact ⟨e.2, AList.mem_lookup_iff.mpr he, hp⟩

omit [DecidableEq K] in
theorem len_eq_keys (m : GoMap K V) : m.len = m.keys.length := by
  simp [len, AList.keys, List.keys]

end GoMap

/-- The order in which one `range` over a map visits its values: any reordering. -/
structure Iteration (α : Type) where
  order : List α → List α
  perm : ∀ l, (order l).Perm l

/-- The order of the entry list itself. -/
def Iteration.asStored (α : Type) : Iteration α := ⟨id, fun _ => List.Perm.refl _⟩

/-- The order in which `x`, if it is there, comes first. -/
def Iteration.startingAt {α : Type} [DecidableEq α] (x : α) : Iteration α where
  order := fun l => if x ∈ l then x :: l.erase x else l
  perm := fun l => by
    split
    next hx => exact (List.perm_cons_erase hx).symm
    next => exact List.Perm.refl l

theorem Iteration.mem_order {α : Type} (it : Iteration α) {l : List α} {a : α} :
    a ∈ it.order l ↔ a ∈ l :=
  (it.perm l).mem_iff

end Cachey
