/-
# The store over its B+tree

`Cachey.Store.Store` takes the expiration index to be the finite set of its pairs.  Here the index
is what it is in the program, a B+tree behind `expiration.Index`, and every function of the store
that touches it is written over the tree.

* `TreeIndex`: a tree together with what holds of it between two calls (`Tree.Ordered`), so that
  its calls always return and nothing further has to be said about panics.
* `IndexedStore`: data and tree.  `cleanupExpired` is the loop of the source, without a bound on
  its turns: it ends because each turn takes the first pair out of the tree.
* `abs`: the store with the set of pairs.  `Operation.abs_run`: every operation does to the set
  model what it does to the store over the tree.
-/
import Cachey.BTree.OrderedSet
import Cachey.Store.Install

namespace Cachey.Store

open BTree (Expiration Tree)
open Wal (Record SnapshotEntry WriteOutcome)

/-! ## 1. The index -/

/-- `expiration.Index`: a tree as it is between two calls. -/
structure TreeIndex where
  tree : Tree
  ordered : tree.Ordered

namespace TreeIndex

def newIndex : TreeIndex := ⟨Tree.new, Tree.Ordered.new⟩

def pairs (i : TreeIndex) : Finset Expiration := i.tree.content

theorem insert_isSome (e : Expiration) (i : TreeIndex) : (i.tree.insert e).isSome := by
  obtain ⟨t, heq, -⟩ := Tree.insert_spec i.ordered e
  rw [heq]
  rfl

theorem delete_isSome (e : Expiration) (i : TreeIndex) : (i.tree.delete e).isSome := by
  obtain ⟨t, found, heq, -⟩ := Tree.delete_spec i.ordered e
  rw [heq]
  rfl

def insert (exp : Int) (key : String) (i : TreeIndex) : TreeIndex where
  tree := (i.tree.insert ⟨key, exp⟩).get (i.insert_isSome _)
  ordered := by
    obtain ⟨t, heq, ho, -⟩ := Tree.insert_spec i.ordered ⟨key, exp⟩
    simpa only [heq, Option.get_some] using ho

/-- `Delete`; the error for a pair that is not there is looked at by nobody. -/
def delete (exp : Int) (key : String) (i : TreeIndex) : TreeIndex where
  tree := ((i.tree.delete ⟨key, exp⟩).get (i.delete_isSome _)).1
  ordered := by
    obtain ⟨t, found, heq, ho, -⟩ := Tree.delete_spec i.ordered ⟨key, exp⟩
    simpa only [heq, Option.get_some] using ho

def first (i : TreeIndex) : Option Expiration := i.tree.first

@[simp] theorem pairs_newIndex : newIndex.pairs = ∅ := rfl

@[simp] theorem pairs_insert (exp : Int) (key : String) (i : TreeIndex) :
    (i.insert exp key).pairs = Insert.insert ⟨key, exp⟩ i.pairs := by
  obtain ⟨t, heq, -, hcontent⟩ := Tree.insert_spec i.ordered ⟨key, exp⟩
  simpa only [pairs, insert, heq, Option.get_some] using hcontent

@[simp] theorem pairs_delete (exp : Int) (key : String) (i : TreeIndex) :
    (i.delete exp key).pairs = i.pairs.erase ⟨key, exp⟩ := by
  obtain ⟨t, found, heq, -, -, hcontent⟩ := Tree.delete_spec i.ordered ⟨key, exp⟩
  simpa only [pairs, delete, heq, Option.get_some] using hcontent

variable {i : TreeIndex} {e : Expiration}

theorem first_eq_some_iff : i.first = some e ↔ IsLeast (i.pairs : Set Expiration) e :=
  (Tree.first_spec i.ordered).1 e

theorem first_eq_none_iff : i.first = none ↔ i.pairs = ∅ :=
  (Tree.first_spec i.ordered).2

theorem card_delete_first (h : i.first = some e) :
    (i.delete e.exp e.key).pairs.card < i.pairs.card := by
  rw [pairs_delete]
  exact Finset.card_erase_lt_of_mem (first_eq_some_iff.mp h).1

end TreeIndex

/-! ## 2. The store -/

/-- `CacheyStore`: the data and the tree of expiries. -/
structure IndexedStore where
  data : GoMap String Entry
  index : TreeIndex

namespace IndexedStore

/-- `NewCacheyStore`. -/
def new : IndexedStore := { data := ∅, index := .newIndex }

/-- `index.Delete` of the pair of a key with a non-zero expiry. -/
def unindex (key : String) (e : Entry) (s : IndexedStore) : IndexedStore :=
  if e.exp ≠ 0 then { s with index := s.index.delete e.exp key } else s

def expireKey (now : Int) (key : String) (seen : Entry) (s : IndexedStore) : IndexedStore :=
  match s.data.lookup key with
  | none => s
  | some entry =>
    if entry.exp ≠ seen.exp ∨ ¬ isExpired now entry then s
    else { data := s.data.erase key, index := s.index.delete entry.exp key }

def get (now : Int) (key : String) (s : IndexedStore) : IndexedStore × Except StoreError String :=
  match s.data.lookup key with
  | none => (s, .error .invalidKey)
  | some entry =>
    if isExpired now entry then (s.expireKey now key entry, .error .invalidKey)
    else (s, .ok entry.value)

def putLocked (key value : String) (s : IndexedStore) : IndexedStore :=
  let s := match s.data.lookup key with
    | none => s
    | some old => s.unindex key old
  { s with data := s.data.insert key { value := value, exp := 0 } }

def deleteLocked (now : Int) (key : String) (s : IndexedStore) :
    IndexedStore × Except StoreError Unit :=
  match s.data.lookup key with
  | none => (s, .error .invalidKey)
  | some entry =>
    let s := { s with data := s.data.erase key }.unindex key entry
    (s, if isExpired now entry then .error .invalidKey else .ok ())

def ttlAtLocked (now : Int) (key : String) (exp : Int) (s : IndexedStore) :
    IndexedStore × Except StoreError Unit :=
  match s.data.lookup key with
  | none => (s, .error .invalidKey)
  | some entry =>
    let s := s.unindex key entry
    if isExpired now entry then ({ s with data := s.data.erase key }, .error .invalidKey)
    else
      ({ data := s.data.insert key { entry with exp := exp }, index := s.index.insert exp key },
        .ok ())

def put (w : WriteOutcome) (key value : String) (s : IndexedStore) :
    IndexedStore × Except StoreError Unit :=
  if w ≠ .ok then (s, .error .notLogged) else (s.putLocked key value, .ok ())

def delete (w : WriteOutcome) (now : Int) (key : String) (s : IndexedStore) :
    IndexedStore × Except StoreError Unit :=
  match s.data.lookup key with
  | none => (s, .error .invalidKey)
  | some _ => if w ≠ .ok then (s, .error .notLogged) else s.deleteLocked now key

def ttl (w : WriteOutcome) (now : Int) (key : String) (ttlMillis : Int) (s : IndexedStore) :
    IndexedStore × Except StoreError Unit :=
  match s.data.lookup key with
  | none => (s, .error .invalidKey)
  | some _ =>
    if w ≠ .ok then (s, .error .notLogged) else s.ttlAtLocked now key (i64 (now + ttlMillis))

def applyRecord (now : Int) (rec : Record) (s : IndexedStore) :
    IndexedStore × Except StoreError Unit :=
  match rec.op with
  | .put => (s.putLocked rec.key rec.val, .ok ())
  | .delete => ((s.deleteLocked now rec.key).1, .ok ())
  | .ttl => ((s.ttlAtLocked now rec.key rec.exp).1, .ok ())
  | .noop | .config | .hotStuff | .membership => (s, .ok ())
  | .other text => (s, .error (.unknownOp (.other text)))

def loadEntry (s : IndexedStore) (e : SnapshotEntry) : IndexedStore :=
  { data := s.data.insert e.key { value := e.val, exp := e.exp },
    index := if e.exp ≠ 0 then s.index.insert e.exp e.key else s.index }

def applySnapshot (entries : List SnapshotEntry) (s : IndexedStore) : IndexedStore :=
  entries.foldl loadEntry s

/-- `stillExpired`: the key of a pair has the expiry of the pair, and that has passed. -/
def stillExpired (now : Int) (e : Expiration) (s : IndexedStore) : Bool :=
  match s.data.lookup e.key with
  | none => false
  | some entry => entry.exp = e.exp && isExpired now entry

/-- What a turn of `cleanupExpired` does with the first pair: the key goes if it is still expired,
the pair goes in any case. -/
def purge (now : Int) (e : Expiration) (s : IndexedStore) : IndexedStore where
  data := if s.stillExpired now e then s.data.erase e.key else s.data
  index := s.index.delete e.exp e.key

/-- The loop of `cleanupExpired`, with `removed` keys gone so far. -/
def cleanupLoop (now : Int) (limit removed : Nat) (s : IndexedStore) : IndexedStore × Nat :=
  if removed < limit then
    match h : s.index.first with
    | none => (s, removed)
    | some e =>
      if e.exp > now then (s, removed)
      else cleanupLoop now limit (if s.stillExpired now e then removed + 1 else removed)
        (s.purge now e)
  else (s, removed)
termination_by s.index.pairs.card
decreasing_by exact TreeIndex.card_delete_first h

/-- `cleanupExpired`: the store after the pass, and how many keys it removed. -/
def cleanupExpired (now : Int) (limit : Nat) (s : IndexedStore) : IndexedStore × Nat :=
  s.cleanupLoop now limit 0

end IndexedStore

/-- What can be called on a store. -/
inductive Operation where
  | put (w : WriteOutcome) (key value : String)
  | delete (w : WriteOutcome) (key : String)
  | ttl (w : WriteOutcome) (key : String) (ttlMillis : Int)
  | get (key : String)
  | cleanupExpired (limit : Nat)
  | applyRecord (r : Record)
  | applySnapshot (entries : List SnapshotEntry)

namespace Operation

/-- The store over the tree after a call. -/
def run (now : Int) (s : IndexedStore) : Operation → IndexedStore
  | put w key value => (s.put w key value).1
  | delete w key => (s.delete w now key).1
  | ttl w key ttlMillis => (s.ttl w now key ttlMillis).1
  | get key => (s.get now key).1
  | cleanupExpired limit => (s.cleanupExpired now limit).1
  | applyRecord r => (s.applyRecord now r).1
  | applySnapshot entries => s.applySnapshot entries

/-- The set model after the same call. -/
def runSet (now : Int) (s : CacheyStore) : Operation → CacheyStore
  | put w key value => (s.put w key value).2.1
  | delete w key => (s.delete w now key).2.1
  | ttl w key ttlMillis => (s.ttl w now key ttlMillis).2.1
  | get key => (s.get now key).1
  | cleanupExpired limit => (s.cleanupExpired now limit).1
  | applyRecord r => (s.applyRecord now r).1
  | applySnapshot entries => s.applySnapshot entries

end Operation

/-! ## 3. The set model

The pairs of a tree are a set, and the least element of that set is what `First` returns; with these
two facts each function over the tree is matched with the function of the same name over the set.
Only the loop needs an argument: over the set it counts its turns, over the tree it does not. -/

/-- A pair of the tree as the set model has it. -/
def pairOf (e : Expiration) : Int ×ₗ String := toLex (e.exp, e.key)

theorem pairOf_injective : Function.Injective pairOf := by
  rintro ⟨k, x⟩ ⟨k', x'⟩ h
  cases h
  rfl

theorem pairOf_le {e e' : Expiration} : pairOf e ≤ pairOf e' ↔ e ≤ e' := Iff.rfl

namespace IndexedStore

/-- The store with the set of its pairs. -/
def abs (s : IndexedStore) : CacheyStore := { data := s.data, index := s.index.pairs.image pairOf }

@[simp] theorem data_abs (s : IndexedStore) : s.abs.data = s.data := rfl

theorem image_erase (i : TreeIndex) (exp : Int) (key : String) :
    (i.delete exp key).pairs.image pairOf = (i.pairs.image pairOf).erase (toLex (exp, key)) := by
  rw [TreeIndex.pairs_delete, Finset.image_erase pairOf_injective]
  rfl

theorem image_insert (i : TreeIndex) (exp : Int) (key : String) :
    (i.insert exp key).pairs.image pairOf = insert (toLex (exp, key)) (i.pairs.image pairOf) := by
  rw [TreeIndex.pairs_insert, Finset.image_insert]
  rfl

variable {s : IndexedStore} {e : Expiration}

theorem mem_abs_index {exp : Int} {key : String} :
    toLex (exp, key) ∈ s.abs.index ↔ (⟨key, exp⟩ : Expiration) ∈ s.index.pairs := by
  change pairOf ⟨key, exp⟩ ∈ s.index.pairs.image pairOf ↔ _
  exact pairOf_injective.mem_finset_image

@[simp] theorem abs_new : new.abs = newCacheyStore := rfl

theorem abs_unindex (key : String) (e : Entry) (s : IndexedStore) :
    (s.unindex key e).abs = s.abs.unindex key e := by
  unfold unindex CacheyStore.unindex
  split
  · rw [abs, image_erase]
    rfl
  · rfl

theorem abs_expireKey (now : Int) (key : String) (seen : Entry) (s : IndexedStore) :
    (s.expireKey now key seen).abs = s.abs.expireKey now key seen := by
  unfold expireKey CacheyStore.expireKey
  rw [data_abs]
  cases s.data.lookup key with
  | none => rfl
  | some entry =>
    dsimp only
    split
    · rfl
    · rw [abs, image_erase]
      rfl

theorem abs_putLocked (key value : String) (s : IndexedStore) :
    (s.putLocked key value).abs = s.abs.putLocked key value := by
  unfold putLocked CacheyStore.putLocked
  rw [data_abs]
  cases s.data.lookup key with
  | none => rfl
  | some old =>
    dsimp only
    rw [← abs_unindex]
    rfl

theorem abs_deleteLocked (now : Int) (key : String) (s : IndexedStore) :
    (s.deleteLocked now key).1.abs = (s.abs.deleteLocked now key).1 := by
  unfold deleteLocked CacheyStore.deleteLocked
  rw [data_abs]
  cases s.data.lookup key with
  | none => rfl
  | some entry => exact abs_unindex key entry _

theorem abs_ttlAtLocked (now : Int) (key : String) (exp : Int) (s : IndexedStore) :
    (s.ttlAtLocked now key exp).1.abs = (s.abs.ttlAtLocked now key exp).1 := by
  unfold ttlAtLocked CacheyStore.ttlAtLocked
  rw [data_abs]
  cases s.data.lookup key with
  | none => rfl
  | some entry =>
    dsimp only
    rw [← abs_unindex]
    split
    · rfl
    · rw [abs, image_insert]
      rfl

theorem abs_loadEntry (s : IndexedStore) (e : SnapshotEntry) :
    (s.loadEntry e).abs = s.abs.loadEntry e := by
  unfold loadEntry CacheyStore.loadEntry
  by_cases h : e.exp ≠ 0
  · simp only [if_pos h]
    rw [abs, image_insert]
    rfl
  · simp only [if_neg h]
    rfl

theorem abs_applySnapshot : ∀ (entries : List SnapshotEntry) (s : IndexedStore),
    (s.applySnapshot entries).abs = s.abs.applySnapshot entries
  | [], _ => rfl
  | e :: entries, s => by
    have ih := abs_applySnapshot entries (s.loadEntry e)
    rw [abs_loadEntry] at ih
    exact ih

theorem min_abs_index (h : s.index.first = some e) (hne : s.abs.index.Nonempty) :
    s.abs.index.min' hne = pairOf e := by
  obtain ⟨hin, hleast⟩ := TreeIndex.first_eq_some_iff.mp h
  refine le_antisymm (Finset.min'_le _ _ (Finset.mem_image_of_mem _ hin)) ?_
  refine Finset.le_min' _ _ _ fun p hp => ?_
  obtain ⟨e', he', rfl⟩ := Finset.mem_image.mp hp
  exact pairOf_le.mpr (hleast he')

theorem abs_purge (now : Int) (e : Expiration) (s : IndexedStore) : (s.purge now e).abs =
    { data := if s.stillExpired now e then s.data.erase e.key else s.data
      index := s.abs.index.erase (pairOf e) } := by
  rw [abs]
  congr 1
  exact image_erase s.index e.exp e.key

theorem cleanupLoop_abs {now : Int} (h : s.index.first = some e) (turns limit : Nat) :
    s.abs.cleanupLoop now (turns + 1) (limit + 1) =
      if e.exp > now then (s.abs, 0)
      else if s.stillExpired now e then
        (((s.purge now e).abs.cleanupLoop now turns limit).1,
          ((s.purge now e).abs.cleanupLoop now turns limit).2 + 1)
      else (s.purge now e).abs.cleanupLoop now turns (limit + 1) := by
  have hne : s.abs.index.Nonempty :=
    ⟨_, Finset.mem_image_of_mem _ (TreeIndex.first_eq_some_iff.mp h).1⟩
  have hpurge := abs_purge now e s
  rw [CacheyStore.cleanupLoop, dif_pos hne, min_abs_index h hne]
  simp only [pairOf, ofLex_toLex, data_abs] at hpurge ⊢
  by_cases hpast : e.exp > now
  · simp only [hpast, if_true]
  · simp only [hpast, if_false]
    cases hget : s.data.lookup e.key with
    | none =>
      have hstill : s.stillExpired now e = false := by simp [stillExpired, hget]
      simp only [hstill, Bool.false_eq_true, if_false] at hpurge ⊢
      rw [hpurge]
    | some entry =>
      by_cases hcond : entry.exp = e.exp ∧ isExpired now entry = true
      · have hstill : s.stillExpired now e = true := by simp [stillExpired, hget, hcond]
        simp only [hstill, if_true, hcond, and_self] at hpurge ⊢
        rw [hpurge]
      · have hstill : s.stillExpired now e = false := by simpa [stillExpired, hget] using hcond
        simp only [hstill, Bool.false_eq_true, if_false, hcond] at hpurge ⊢
        rw [hpurge]

/-- The loop over the tree does what the loop over the set does, whatever number of turns beyond
the size of the index the latter is given. -/
theorem abs_cleanupLoop (now : Int) (limit : Nat) : ∀ (turns removed : Nat) (s : IndexedStore),
    s.index.pairs.card ≤ turns →
      (s.cleanupLoop now limit removed).1.abs =
          (s.abs.cleanupLoop now turns (limit - removed)).1 ∧
        (s.cleanupLoop now limit removed).2 =
          removed + (s.abs.cleanupLoop now turns (limit - removed)).2 := by
  intro turns
  induction turns with
  | zero =>
    intro removed s hcard
    have hempty : s.index.pairs = ∅ := Finset.card_eq_zero.mp (Nat.le_zero.mp hcard)
    have hfirst := TreeIndex.first_eq_none_iff.mpr hempty
    unfold cleanupLoop
    split
    · split
      · exact ⟨rfl, rfl⟩
      next e he =>
        rw [hfirst] at he
        cases he
    · exact ⟨rfl, rfl⟩
  | succ turns ih =>
    intro removed s hcard
    unfold cleanupLoop
    by_cases hlt : removed < limit
    · obtain ⟨l, hl⟩ : ∃ l, limit - removed = l + 1 := ⟨limit - removed - 1, by omega⟩
      rw [if_pos hlt, hl]
      split
      next hfirst =>
        have hempty : ¬ s.abs.index.Nonempty := by
          rw [Finset.not_nonempty_iff_eq_empty, abs, TreeIndex.first_eq_none_iff.mp hfirst]
          rfl
        rw [CacheyStore.cleanupLoop, dif_neg hempty]
        exact ⟨rfl, rfl⟩
      next e hfirst =>
        have hleft : (s.purge now e).index.pairs.card ≤ turns :=
          Nat.le_of_lt_succ (lt_of_lt_of_le (TreeIndex.card_delete_first hfirst) hcard)
        rw [cleanupLoop_abs hfirst]
        by_cases hpast : e.exp > now
        · rw [if_pos hpast, if_pos hpast]
          exact ⟨rfl, rfl⟩
        · rw [if_neg hpast, if_neg hpast]
          cases hstill : s.stillExpired now e with
          | true =>
            have hless : limit - (removed + 1) = l := by omega
            obtain ⟨hs, hn⟩ := ih (removed + 1) _ hleft
            rw [hless] at hs hn
            rw [if_pos rfl, if_pos rfl]
            exact ⟨hs, by rw [hn]; dsimp only; omega⟩
          | false =>
            obtain ⟨hs, hn⟩ := ih removed _ hleft
            rw [hl] at hs hn
            rw [if_neg (by simp), if_neg (by simp)]
            exact ⟨hs, hn⟩
    · have hz : limit - removed = 0 := by omega
      rw [if_neg hlt, hz]
      exact ⟨rfl, rfl⟩

theorem abs_cleanupExpired (now : Int) (limit : Nat) (s : IndexedStore) :
    (s.cleanupExpired now limit).1.abs = (s.abs.cleanupExpired now limit).1 ∧
      (s.cleanupExpired now limit).2 = (s.abs.cleanupExpired now limit).2 := by
  have hcard : s.index.pairs.card ≤ s.abs.index.card :=
    (Finset.card_image_of_injective _ pairOf_injective).ge
  obtain ⟨hs, hn⟩ := abs_cleanupLoop now limit s.abs.index.card 0 s hcard
  rw [Nat.zero_add] at hn
  exact ⟨hs, hn⟩

end IndexedStore

/-- **Every operation does to the set model what it does to the store over the tree.** -/
theorem Operation.abs_run (now : Int) (op : Operation) (s : IndexedStore) :
    (op.run now s).abs = op.runSet now s.abs := by
  cases op with
  | put w key value =>
    simp only [run, runSet, IndexedStore.put, CacheyStore.put]
    split
    · rfl
    · exact s.abs_putLocked key value
  | delete w key =>
    simp only [run, runSet, IndexedStore.delete, CacheyStore.delete, IndexedStore.data_abs]
    cases s.data.lookup key with
    | none => rfl
    | some e =>
      dsimp only
      split
      · rfl
      · exact s.abs_deleteLocked now key
  | ttl w key ttlMillis =>
    simp only [run, runSet, IndexedStore.ttl, CacheyStore.ttl, IndexedStore.data_abs]
    cases s.data.lookup key with
    | none => rfl
    | some e =>
      dsimp only
      split
      · rfl
      · exact s.abs_ttlAtLocked now key _
  | get key =>
    simp only [run, runSet, IndexedStore.get, CacheyStore.get, IndexedStore.data_abs]
    cases s.data.lookup key with
    | none => rfl
    | some e =>
      dsimp only
      split
      · exact s.abs_expireKey now key e
      · rfl
  | cleanupExpired limit => exact (s.abs_cleanupExpired now limit).1
  | applyRecord r =>
    simp only [run, runSet, IndexedStore.applyRecord, CacheyStore.applyRecord]
    cases r.op with
    | put => exact s.abs_putLocked r.key r.val
    | delete => exact s.abs_deleteLocked now r.key
    | ttl => exact s.abs_ttlAtLocked now r.key r.exp
    | noop | config | hotStuff | membership | other _ => rfl
  | applySnapshot entries => exact s.abs_applySnapshot entries

end Cachey.Store
