/-
# The expiration index against the data

The store keeps the expiries twice: in the entries, and as pairs in the tree `cleanupExpired` works
from.  `Mirrors` says that the two agree: the tree holds exactly the pairs of the entries that end.

* §1  `Mirrors`, and what a change of one key needs for it.
* §2  Every operation.  Two do not keep it by themselves.  A TTL whose expiry comes out as 0 stores
      the mark of an entry that never ends, and puts the pair (0, key) into the tree all the same.
      `ApplySnapshot` writes over an entry without taking its old pair out.  `Operation.Keeps` is
      exactly what is missing (`Operation.mirrors_iff`).
* §3  `cleanupExpired`: on a store that mirrors it removes exactly the first expired keys; on any
      store it ends, and removes expired keys only (`cleanup_exact`).
* §4  Whole histories (`index_mirrors_iff`).
-/
import Cachey.Store.Indexed

namespace Cachey.Store

open BTree (Expiration)
open Wal (SnapshotEntry)

/-! ## 1. Mirrors -/

/-- The tree holds exactly the pairs of the entries that end. -/
def IndexedStore.Mirrors (s : IndexedStore) : Prop :=
  ∀ e : Expiration, e ∈ s.index.pairs ↔
    ∃ x, s.data.lookup e.key = some x ∧ x.exp = e.exp ∧ x.exp ≠ 0

namespace CacheyStore

/-- The same of the set model. -/
def Mirrored (s : CacheyStore) : Prop :=
  ∀ (exp : Int) (key : String), toLex (exp, key) ∈ s.index ↔
    ∃ x, s.data.lookup key = some x ∧ x.exp = exp ∧ x.exp ≠ 0

variable {s s' : CacheyStore} {key k : String} {now exp : Int} {e : Entry}

/-- A change of one key mirrors again exactly when the pairs of this key do. -/
theorem Mirrored.iff_of_key (h : s.Mirrored) (key : String)
    (hdata : ∀ k, k ≠ key → s'.data.lookup k = s.data.lookup k)
    (hindex : ∀ exp k, k ≠ key → (toLex (exp, k) ∈ s'.index ↔ toLex (exp, k) ∈ s.index)) :
    s'.Mirrored ↔ ∀ exp, toLex (exp, key) ∈ s'.index ↔
      ∃ x, s'.data.lookup key = some x ∧ x.exp = exp ∧ x.exp ≠ 0 := by
  constructor
  · exact fun h' exp => h' exp key
  · intro hkey exp k
    by_cases hk : k = key
    · subst hk
      exact hkey exp
    · rw [hindex exp k hk, hdata k hk]
      exact h exp k

theorem mem_unindex :
    toLex (exp, k) ∈ (s.unindex key e).index ↔
      toLex (exp, k) ∈ s.index ∧ (e.exp = 0 ∨ ¬ (exp = e.exp ∧ k = key)) := by
  unfold unindex
  by_cases hzero : e.exp = 0
  · simp [hzero]
  · simp [hzero, and_comm]

theorem Mirrored.unindexed (h : s.Mirrored) (hget : s.data.lookup key = some e) (exp : Int) :
    toLex (exp, key) ∉ (s.unindex key e).index := by
  rw [mem_unindex]
  rintro ⟨hin, hout⟩
  obtain ⟨x, hx, hexp, hne⟩ := (h exp key).mp hin
  cases hget.symm.trans hx
  rcases hout with hzero | hdiff
  · exact hne hzero
  · exact hdiff ⟨hexp.symm, rfl⟩

theorem mem_unindex_other (hk : k ≠ key) :
    toLex (exp, k) ∈ (s.unindex key e).index ↔ toLex (exp, k) ∈ s.index := by
  rw [mem_unindex]
  simp [hk]

theorem Mirrored.absent (h : s.Mirrored) (hget : s.data.lookup key = none) (exp : Int) :
    toLex (exp, key) ∉ s.index := by
  intro hin
  obtain ⟨x, hx, -⟩ := (h exp key).mp hin
  rw [hget] at hx
  cases hx

/-! ## 2. One operation

Every function that replaces or drops an entry takes its old pair out first, and then the pairs of
the key are exactly what the function adds.  `ApplySnapshot` skips the first half, so for a snapshot
the old pairs, and those of earlier entries for the same key, have to be the right ones already. -/

theorem Mirrored.unindex_old (h : s.Mirrored)
    (hindex : s'.index = ((s.data.lookup key).elim s (s.unindex key)).index) :
    (∀ exp k, k ≠ key → (toLex (exp, k) ∈ s'.index ↔ toLex (exp, k) ∈ s.index)) ∧
      ∀ exp, toLex (exp, key) ∉ s'.index := by
  rw [hindex]
  cases hget : s.data.lookup key with
  | none => exact ⟨fun _ _ _ => Iff.rfl, h.absent hget⟩
  | some old => exact ⟨fun _ _ hk => mem_unindex_other hk, h.unindexed hget⟩

theorem Mirrored.putLocked (h : s.Mirrored) (key value : String) :
    (s.putLocked key value).Mirrored := by
  have hdata := fun k => lookup_putLocked k key value s
  have hindex : (s.putLocked key value).index =
      ((s.data.lookup key).elim s (s.unindex key)).index := by
    unfold CacheyStore.putLocked
    cases s.data.lookup key <;> rfl
  obtain ⟨hother, hnone⟩ := h.unindex_old hindex
  refine (h.iff_of_key key (fun k hk => by rw [hdata, if_neg hk]) hother).mpr fun exp => ?_
  rw [hdata, if_pos rfl]
  simp [hnone]

theorem Mirrored.deleteLocked (h : s.Mirrored) (now : Int) (key : String) :
    (s.deleteLocked now key).1.Mirrored := by
  have hdata := fun k => lookup_deleteLocked k key now s
  have hindex : (s.deleteLocked now key).1.index =
      ((s.data.lookup key).elim s (s.unindex key)).index := by
    unfold CacheyStore.deleteLocked
    cases s.data.lookup key with
    | none => rfl
    | some e =>
      dsimp only [unindex, Option.elim_some]
      split <;> rfl
  obtain ⟨hother, hnone⟩ := h.unindex_old hindex
  refine (h.iff_of_key key (fun k hk => by rw [hdata, if_neg hk]) hother).mpr fun exp => ?_
  rw [hdata, if_pos rfl]
  simp [hnone]

/-- A TTL keeps the mirror exactly when the expiry it sets is not the mark 0. -/
theorem Mirrored.ttlAtLocked_iff (h : s.Mirrored) (now : Int) (key : String) (exp : Int) :
    (s.ttlAtLocked now key exp).1.Mirrored ↔
      ∀ x, s.data.lookup key = some x → isExpired now x = false → exp ≠ 0 := by
  cases hget : s.data.lookup key with
  | none =>
    have hsame : (s.ttlAtLocked now key exp).1 = s := by simp [CacheyStore.ttlAtLocked, hget]
    simpa [hsame] using h
  | some e =>
    have hdata := fun k => lookup_ttlAtLocked k key now exp s
    rw [hget] at hdata
    cases hexp : isExpired now e with
    | true =>
      have hindex : (s.ttlAtLocked now key exp).1.index = (s.unindex key e).index := by
        simp [CacheyStore.ttlAtLocked, hget, hexp]
      have hkept : (s.ttlAtLocked now key exp).1.Mirrored := by
        refine (h.iff_of_key key (fun k hk => by rw [hdata, if_neg hk]) ?_).mpr ?_
        · intro exp' k hk
          rw [hindex]
          exact mem_unindex_other hk
        · intro exp'
          rw [hindex, hdata, if_pos rfl]
          simp [h.unindexed hget exp', hexp]
      simpa [hexp] using hkept
    | false =>
      have hindex : (s.ttlAtLocked now key exp).1.index =
          insert (toLex (exp, key)) (s.unindex key e).index := by
        simp [CacheyStore.ttlAtLocked, hget, hexp]
      rw [h.iff_of_key key (fun k hk => by rw [hdata, if_neg hk])]
      · simp only [hindex, hdata, if_true, Option.bind_some, hexp, Bool.false_eq_true, if_false,
          Finset.mem_insert, h.unindexed hget, or_false, Option.some.injEq, exists_eq_left']
        constructor
        · intro hpairs
          have hexp' := (hpairs exp).mp rfl
          simp [hexp'.2]
        · intro hne exp'
          have hne' := hne e rfl hexp
          constructor
          · intro heq
            exact ⟨(Prod.mk.inj heq).1.symm, hne'⟩
          · rintro ⟨rfl, -⟩
            rfl
      · intro exp' k hk
        rw [hindex, Finset.mem_insert]
        have hother : toLex (exp', k) ≠ toLex (exp, key) := fun heq => hk (Prod.mk.inj heq).2
        simp only [hother, false_or]
        exact mem_unindex_other hk

theorem Mirrored.get (h : s.Mirrored) (now : Int) (key : String) : (s.get now key).1.Mirrored := by
  unfold CacheyStore.get
  cases hget : s.data.lookup key with
  | none => exact h
  | some e =>
    dsimp only
    split
    next hexp =>
      -- an expired entry has an end, and `expireKey` does what `deleteLocked` does
      have hzero : e.exp ≠ 0 := by
        simp only [isExpired, Bool.and_eq_true, decide_eq_true_eq] at hexp
        exact hexp.1
      have hsame : s.expireKey now key e = (s.deleteLocked now key).1 := by
        simp [CacheyStore.expireKey, CacheyStore.deleteLocked, hget, hexp, unindex, hzero]
      rw [hsame]
      exact h.deleteLocked now key
    next => exact h

end CacheyStore

/-- The last entry of a snapshot for a key. -/
def lastEntry (entries : List SnapshotEntry) (key : String) : Option SnapshotEntry :=
  entries.reverse.find? fun e => e.key = key

namespace CacheyStore

variable {s : CacheyStore}

theorem lookup_applySnapshot (key : String) : ∀ (entries : List SnapshotEntry) (s : CacheyStore),
    (s.applySnapshot entries).data.lookup key = match lastEntry entries key with
      | some e => some { value := e.val, exp := e.exp }
      | none => s.data.lookup key
  | [], _ => rfl
  | e :: entries, s => by
    have ih := lookup_applySnapshot key entries (s.loadEntry e)
    have hlast : lastEntry (e :: entries) key =
        (lastEntry entries key).or (if e.key = key then some e else none) := by
      simp [lastEntry, List.find?_append, List.find?_singleton]
    change ((s.loadEntry e).applySnapshot entries).data.lookup key = _
    rw [ih, hlast, lookup_loadEntry]
    cases lastEntry entries key with
    | some e' => rfl
    | none =>
      by_cases hk : e.key = key
      · simp [hk]
      · have hk' : key ≠ e.key := fun heq => hk heq.symm
        simp [hk, hk']

theorem mem_applySnapshot (exp : Int) (key : String) : ∀ (entries : List SnapshotEntry)
    (s : CacheyStore), toLex (exp, key) ∈ (s.applySnapshot entries).index ↔
      toLex (exp, key) ∈ s.index ∨ ∃ e ∈ entries, e.key = key ∧ e.exp = exp ∧ e.exp ≠ 0
  | [], _ => by simp [applySnapshot]
  | e :: entries, s => by
    have ih := mem_applySnapshot exp key entries (s.loadEntry e)
    have hone : toLex (exp, key) ∈ (s.loadEntry e).index ↔
        toLex (exp, key) ∈ s.index ∨ e.key = key ∧ e.exp = exp ∧ e.exp ≠ 0 := by
      unfold loadEntry
      by_cases hzero : e.exp = 0
      · simp [hzero]
      · have hpair : toLex (exp, key) = toLex (e.exp, e.key) ↔ e.key = key ∧ e.exp = exp := by
          rw [toLex_inj, Prod.mk.injEq, eq_comm, and_comm, eq_comm (a := key)]
        simp [hzero, hpair, or_comm]
    change toLex (exp, key) ∈ ((s.loadEntry e).applySnapshot entries).index ↔ _
    rw [ih, hone]
    simp [or_assoc]

/-- A snapshot keeps the mirror exactly when the last entry of each key repeats every end that the
key has in the store or in an earlier entry. -/
theorem Mirrored.applySnapshot_iff (h : s.Mirrored) (entries : List SnapshotEntry) :
    (s.applySnapshot entries).Mirrored ↔ ∀ key last, lastEntry entries key = some last →
      (∀ e ∈ entries, e.key = key → e.exp ≠ 0 → e.exp = last.exp) ∧
        ∀ x, s.data.lookup key = some x → x.exp ≠ 0 → x.exp = last.exp := by
  constructor
  · intro h' key last hlast
    -- what is in the index has the end of the last entry
    have hpair : ∀ exp, toLex (exp, key) ∈ (s.applySnapshot entries).index → exp = last.exp := by
      intro exp hin
      obtain ⟨x, hx, hexp, -⟩ := (h' exp key).mp hin
      rw [lookup_applySnapshot, hlast] at hx
      obtain rfl := Option.some.inj hx
      exact hexp.symm
    constructor
    · intro e he hkey hne
      exact hpair e.exp ((mem_applySnapshot _ _ _ _).mpr (Or.inr ⟨e, he, hkey, rfl, hne⟩))
    · intro x hx hne
      exact hpair x.exp ((mem_applySnapshot _ _ _ _).mpr (Or.inl ((h _ _).mpr ⟨x, hx, rfl, hne⟩)))
  · intro hlasts exp key
    rw [mem_applySnapshot, lookup_applySnapshot]
    cases hlast : lastEntry entries key with
    | none =>
      have hnone : ∀ e ∈ entries, e.key ≠ key := by
        intro e he
        have := List.find?_eq_none.mp hlast e (List.mem_reverse.mpr he)
        simpa using this
      rw [h exp key]
      constructor
      · rintro (hx | ⟨e, he, hkey, -⟩)
        · exact hx
        · exact absurd hkey (hnone e he)
      · exact Or.inl
    | some last =>
      obtain ⟨hentries, hstore⟩ := hlasts key last hlast
      have hmem : last ∈ entries := List.mem_reverse.mp (List.mem_of_find?_eq_some hlast)
      have hkey : last.key = key := by simpa using List.find?_some hlast
      simp only [Option.some.injEq, exists_eq_left']
      constructor
      · rintro (hin | ⟨e, he, hek, rfl, hne⟩)
        · obtain ⟨x, hx, rfl, hne⟩ := (h exp key).mp hin
          have heq := hstore x hx hne
          exact ⟨heq.symm, heq ▸ hne⟩
        · have heq := hentries e he hek hne
          exact ⟨heq.symm, heq ▸ hne⟩
      · rintro ⟨rfl, hne⟩
        exact Or.inr ⟨last, hmem, hkey, rfl, hne⟩

end CacheyStore

theorem IndexedStore.mirrors_iff_abs (s : IndexedStore) : s.Mirrors ↔ s.abs.Mirrored := by
  constructor
  · intro h exp key
    rw [IndexedStore.mem_abs_index]
    exact h ⟨key, exp⟩
  · intro h e
    have he := h e.exp e.key
    rwa [IndexedStore.mem_abs_index] at he

/-! ## 3. Passes

A pass works from the pairs and checks each against the data before it drops a key.  The check is
why a pair too many does no harm beyond the turn it costs; a pair too few leaves a key to `Get`. -/

namespace IndexedStore

variable {now : Int} {s : IndexedStore} {e : Expiration}

/-- The pairs of the expired keys. -/
def expired (now : Int) (s : IndexedStore) : Finset Expiration :=
  ((s.data.entries.filter fun x => isExpired now x.2).map fun x =>
    (⟨x.1, x.2.exp⟩ : Expiration)).toFinset

theorem mem_expired : e ∈ s.expired now ↔
    ∃ x, s.data.lookup e.key = some x ∧ x.exp = e.exp ∧ isExpired now x = true := by
  simp only [expired, List.mem_toFinset, List.mem_map, List.mem_filter]
  constructor
  · rintro ⟨⟨k, x⟩, ⟨hin, hexp⟩, rfl⟩
    exact ⟨x, AList.mem_lookup_iff.mpr hin, rfl, hexp⟩
  · rintro ⟨x, hget, hexp, hpast⟩
    refine ⟨⟨e.key, x⟩, ⟨AList.mem_lookup_iff.mp hget, hpast⟩, ?_⟩
    rw [hexp]

/-- On a store that mirrors, the expired keys are those of the pairs that are past. -/
theorem Mirrors.mem_expired_iff (h : s.Mirrors) : e ∈ s.expired now ↔
    e ∈ s.index.pairs ∧ e.exp ≤ now := by
  rw [mem_expired, h e]
  constructor
  · rintro ⟨x, hget, hexp, hpast⟩
    simp only [isExpired, Bool.and_eq_true, decide_eq_true_eq] at hpast
    exact ⟨⟨x, hget, hexp, hpast.1⟩, hexp ▸ hpast.2⟩
  · rintro ⟨⟨x, hget, hexp, hne⟩, hpast⟩
    have hzero : e.exp ≠ 0 := hexp ▸ hne
    exact ⟨x, hget, hexp, by simp [isExpired, hexp, hzero, hpast]⟩

theorem stillExpired_iff : s.stillExpired now e = true ↔ e ∈ s.expired now := by
  rw [mem_expired]
  unfold stillExpired
  cases s.data.lookup e.key with
  | none => simp
  | some x => simp

theorem lookup_purge (he : e ∈ s.expired now) (k : String) :
    (s.purge now e).data.lookup k = if k = e.key then none else s.data.lookup k := by
  unfold purge
  rw [if_pos (stillExpired_iff.mpr he), GoMap.lookup_erase_of]

theorem data_purge (he : e ∉ s.expired now) : (s.purge now e).data = s.data :=
  if_neg fun hstill => he (stillExpired_iff.mp hstill)

theorem pair_unique {x : Expiration} (he : e ∈ s.expired now) (hk : x.key = e.key) {y : Entry}
    (hy : s.data.lookup x.key = some y) (hexp : y.exp = x.exp) : x = e := by
  obtain ⟨z, hz, hzexp, -⟩ := mem_expired.mp he
  rw [hk] at hy
  cases hz.symm.trans hy
  cases x
  cases e
  cases hk
  cases hexp.symm.trans hzexp
  rfl

theorem Mirrors.purge (h : s.Mirrors) (he : e ∈ s.expired now) : (s.purge now e).Mirrors := by
  intro x
  change x ∈ (s.index.delete e.exp e.key).pairs ↔ _
  rw [TreeIndex.pairs_delete, Finset.mem_erase, lookup_purge he, h x]
  by_cases hk : x.key = e.key
  · -- the one pair this key can have is the one that goes
    rw [if_pos hk]
    simp only [reduceCtorEq, false_and, exists_false, iff_false, not_and]
    rintro hne ⟨y, hy, hexp, -⟩
    exact hne (pair_unique he hk hy hexp)
  · have hne : x ≠ e := fun heq => hk (congrArg Expiration.key heq)
    simp [hk, hne]

theorem expired_purge (he : e ∈ s.expired now) :
    (s.purge now e).expired now = (s.expired now).erase e := by
  ext x
  rw [Finset.mem_erase, mem_expired (s := s.purge now e), lookup_purge he, mem_expired]
  by_cases hk : x.key = e.key
  · rw [if_pos hk]
    simp only [reduceCtorEq, false_and, exists_false, false_iff, not_and]
    rintro hne ⟨y, hy, hexp, -⟩
    exact hne (pair_unique he hk hy hexp)
  · have hne : x ≠ e := fun heq => hk (congrArg Expiration.key heq)
    simp [hk, hne]

theorem Mirrors.sort_expired (h : s.Mirrors) (hfirst : s.index.first = some e)
    (hpast : e.exp ≤ now) : e ∈ s.expired now ∧
      (s.expired now).sort (· ≤ ·) = e :: ((s.purge now e).expired now).sort (· ≤ ·) := by
  obtain ⟨hin, hleast⟩ := TreeIndex.first_eq_some_iff.mp hfirst
  have he : e ∈ s.expired now := h.mem_expired_iff.mpr ⟨hin, hpast⟩
  refine ⟨he, ?_⟩
  rw [expired_purge he, ← Finset.sort_insert, Finset.insert_erase he]
  · intro b hb
    exact hleast (h.mem_expired_iff.mp (Finset.mem_of_mem_erase hb)).1
  · exact Finset.notMem_erase e _

/-- **The loop, on a store that mirrors.**  It takes the first expired keys, up to the limit. -/
theorem Mirrors.cleanupLoop (now : Int) (limit removed : Nat) (h : s.Mirrors) (hle : removed ≤ limit) :
    let gone := ((s.expired now).sort (· ≤ ·)).take (limit - removed)
    let r := s.cleanupLoop now limit removed
    r.2 = removed + gone.length ∧ r.1.index.pairs = s.index.pairs \ gone.toFinset ∧
      (∀ k, r.1.data.lookup k = if k ∈ gone.map Expiration.key then none else s.data.lookup k) ∧
      r.1.Mirrors := by
  induction hcard : s.index.pairs.card using Nat.strong_induction_on generalizing s removed with
  | _ size ih =>
    unfold IndexedStore.cleanupLoop
    by_cases hlt : removed < limit
    · rw [if_pos hlt]
      split
      next hfirst =>
        have hnone : s.expired now = ∅ := by
          refine Finset.eq_empty_of_forall_notMem fun x hx => ?_
          have hin := (h.mem_expired_iff.mp hx).1
          rw [TreeIndex.first_eq_none_iff.mp hfirst] at hin
          exact absurd hin (Finset.notMem_empty x)
        simp [hnone, h]
      next e hfirst =>
        by_cases hpast : e.exp > now
        · -- the first pair is not past, so none is
          have hnone : s.expired now = ∅ := by
            refine Finset.eq_empty_of_forall_notMem fun x hx => ?_
            obtain ⟨hin, hx⟩ := h.mem_expired_iff.mp hx
            have hle := (TreeIndex.first_eq_some_iff.mp hfirst).2 hin
            rcases hle.lt_or_eq with hlt' | rfl
            · exact absurd (le_trans (BTree.exp_le_of_lt hlt') hx) (not_le.mpr hpast)
            · exact absurd hx (not_le.mpr hpast)
          simp [hpast, hnone, h]
        · obtain ⟨he, hsort⟩ := h.sort_expired hfirst (not_lt.mp hpast)
          have hless : (s.purge now e).index.pairs.card < size :=
            hcard ▸ TreeIndex.card_delete_first hfirst
          obtain ⟨hn, hpairs, hdata, hm⟩ := ih _ hless (removed + 1) (h.purge he) hlt rfl
          have htake : limit - removed = limit - (removed + 1) + 1 := by omega
          rw [if_neg hpast, if_pos (stillExpired_iff.mpr he), hsort, htake, List.take_succ_cons]
          refine ⟨?_, ?_, fun k => ?_, hm⟩
          · rw [hn, List.length_cons]
            omega
          · rw [hpairs, List.toFinset_cons]
            change (s.index.delete e.exp e.key).pairs \ _ = _
            rw [TreeIndex.pairs_delete, Finset.erase_sdiff_comm, Finset.sdiff_insert]
          · rw [hdata, lookup_purge he, List.map_cons]
            by_cases hk : k = e.key
            · simp [hk]
            · simp [hk]
    · have hzero : limit - removed = 0 := by omega
      rw [if_neg hlt, hzero]
      simp [h]

/-- **The loop, on any store.**  A key that has not expired is not touched. -/
theorem lookup_cleanupLoop (limit removed : Nat) {k : String} {x : Entry}
    (hget : s.data.lookup k = some x) (hlive : isExpired now x = false) :
    (s.cleanupLoop now limit removed).1.data.lookup k = some x := by
  induction hcard : s.index.pairs.card using Nat.strong_induction_on generalizing s removed with
  | _ size ih =>
    unfold IndexedStore.cleanupLoop
    split
    · split
      · exact hget
      next e hfirst =>
        split
        · exact hget
        · refine ih _ (hcard ▸ TreeIndex.card_delete_first hfirst) _ ?_ rfl
          by_cases he : e ∈ s.expired now
          · have hk : k ≠ e.key := by
              rintro rfl
              obtain ⟨y, hy, -, hpast⟩ := mem_expired.mp he
              cases hget.symm.trans hy
              rw [hlive] at hpast
              cases hpast
            rw [lookup_purge he, if_neg hk]
            exact hget
          · rw [data_purge he]
            exact hget
    · exact hget

end IndexedStore

/-- **Active cleanup is exact.**  On a store that mirrors, a pass removes the first expired keys in
the order of the pairs, up to its limit, with their pairs, and nothing else.  On any store it removes
no key that has not expired.  That it ends is part of its definition. -/
theorem cleanup_exact (now : Int) (limit : Nat) (s : IndexedStore) :
    (s.Mirrors →
      let gone := ((s.expired now).sort (· ≤ ·)).take limit
      (s.cleanupExpired now limit).2 = min limit (s.expired now).card ∧
      (s.cleanupExpired now limit).1.index.pairs = s.index.pairs \ gone.toFinset ∧
      ∀ k, (s.cleanupExpired now limit).1.data.lookup k =
        if k ∈ gone.map Expiration.key then none else s.data.lookup k) ∧
    ∀ k x, s.data.lookup k = some x → isExpired now x = false →
      (s.cleanupExpired now limit).1.data.lookup k = some x := by
  constructor
  · intro h
    obtain ⟨hn, hpairs, hdata, -⟩ := h.cleanupLoop now limit 0 (Nat.zero_le limit)
    rw [Nat.sub_zero] at hn hpairs hdata
    refine ⟨?_, hpairs, hdata⟩
    rw [IndexedStore.cleanupExpired, hn, List.length_take, Finset.length_sort, Nat.zero_add]
  · intro k x hget hlive
    exact IndexedStore.lookup_cleanupLoop limit 0 hget hlive

/-! ## 4. Histories -/

/-- The expiry a TTL sets on a key that is there and has not expired is not the mark 0. -/
def IndexedStore.Renews (now : Int) (key : String) (exp : Int) (s : IndexedStore) : Prop :=
  ∀ x, s.data.lookup key = some x → isExpired now x = false → exp ≠ 0

/-- What the mirror needs of an operation: a TTL that takes effect sets an expiry other than 0, and
the last entry of a snapshot for a key repeats every end the key has, in the store or in an earlier
entry. -/
def Operation.Keeps (now : Int) (s : IndexedStore) : Operation → Prop
  | ttl w key ttlMillis => w = .ok → s.Renews now key (i64 (now + ttlMillis))
  | applyRecord r => r.op = .ttl → s.Renews now r.key r.exp
  | applySnapshot entries => ∀ key last, lastEntry entries key = some last →
      (∀ e ∈ entries, e.key = key → e.exp ≠ 0 → e.exp = last.exp) ∧
        ∀ x, s.data.lookup key = some x → x.exp ≠ 0 → x.exp = last.exp
  | _ => True

theorem Operation.mirrors_iff {s : IndexedStore} (h : s.Mirrors) (now : Int) (op : Operation) :
    (op.run now s).Mirrors ↔ op.Keeps now s := by
  have habs := (s.mirrors_iff_abs).mp h
  cases op with
  | cleanupExpired limit =>
    obtain ⟨-, -, -, hm⟩ := h.cleanupLoop now limit 0 (Nat.zero_le limit)
    exact iff_of_true hm trivial
  | put w key value =>
    rw [IndexedStore.mirrors_iff_abs, Operation.abs_run]
    refine iff_of_true ?_ trivial
    simp only [runSet, CacheyStore.put]
    split
    · exact habs
    · exact habs.putLocked key value
  | delete w key =>
    rw [IndexedStore.mirrors_iff_abs, Operation.abs_run]
    refine iff_of_true ?_ trivial
    simp only [runSet, CacheyStore.delete]
    cases s.abs.data.lookup key with
    | none => exact habs
    | some x =>
      dsimp only
      split
      · exact habs
      · exact habs.deleteLocked now key
  | ttl w key ttlMillis =>
    rw [IndexedStore.mirrors_iff_abs, Operation.abs_run]
    simp only [runSet, CacheyStore.ttl, Keeps, IndexedStore.Renews]
    cases hget : s.data.lookup key with
    | none => simpa [hget] using habs
    | some x =>
      by_cases hw : w = .ok
      · have hiff := habs.ttlAtLocked_iff now key (i64 (now + ttlMillis))
        simpa [hget, hw] using hiff
      · simpa [hget, hw] using habs
  | get key =>
    rw [IndexedStore.mirrors_iff_abs, Operation.abs_run]
    exact iff_of_true (habs.get now key) trivial
  | applyRecord r =>
    rw [IndexedStore.mirrors_iff_abs, Operation.abs_run]
    simp only [runSet, CacheyStore.applyRecord, Keeps]
    cases hop : r.op with
    | put => exact iff_of_true (habs.putLocked r.key r.val) fun hno => by cases hno
    | delete => exact iff_of_true (habs.deleteLocked now r.key) fun hno => by cases hno
    | ttl => exact (habs.ttlAtLocked_iff now r.key r.exp).trans ⟨fun h _ => h, fun h => h rfl⟩
    | noop | config | hotStuff | membership | other _ =>
      exact iff_of_true habs fun hno => by cases hno
  | applySnapshot entries =>
    rw [IndexedStore.mirrors_iff_abs, Operation.abs_run]
    exact habs.applySnapshot_iff entries

/-- The store after a history of calls, each at its time. -/
def after (turns : List (Int × Operation)) : IndexedStore :=
  turns.foldl (fun s t => t.2.run t.1 s) .new

theorem after_concat (turns : List (Int × Operation)) (now : Int) (op : Operation) :
    after (turns ++ [(now, op)]) = op.run now (after turns) := by
  simp [after]

/-- **A history** does to the set model what it does to the store over the tree. -/
theorem abs_after (turns : List (Int × Operation)) :
    (after turns).abs = turns.foldl (fun s t => t.2.runSet t.1 s) newCacheyStore :=
  (List.foldl_hom IndexedStore.abs fun s t => (t.2.abs_run t.1 s).symm).symm

theorem mirrors_new : IndexedStore.new.Mirrors := by
  intro e
  simp [IndexedStore.new]

/-- **The expiration index mirrors the data** after every operation of a history, exactly when
every operation keeps it in the state it meets. -/
theorem index_mirrors_iff (turns : List (Int × Operation)) :
    (∀ pre, pre <+: turns → (after pre).Mirrors) ↔
      ∀ pre now op, pre ++ [(now, op)] <+: turns → op.Keeps now (after pre) := by
  constructor
  · intro h pre now op hpre
    have hbefore := h pre ((List.prefix_append pre _).trans hpre)
    have hafter := h _ hpre
    rw [after_concat] at hafter
    exact (Operation.mirrors_iff hbefore now op).mp hafter
  · intro h pre
    -- along the history, one operation after another
    induction pre using List.reverseRecOn with
    | nil => exact fun _ => mirrors_new
    | append_singleton pre t ih =>
      intro hpre
      have hbefore := ih ((List.prefix_append pre _).trans hpre)
      rw [after_concat]
      exact (Operation.mirrors_iff hbefore t.1 t.2).mpr (h pre t.1 t.2 hpre)

/-- A key is put, and given a TTL that counts back to the epoch. -/
def backToZero : List (Int × Operation) :=
  [(1000, .put .ok "k" "v"), (1000, .ttl .ok "k" (-1000))]

/-- A key with an end is written over by a snapshot in which it has none. -/
def loadedOver : List (Int × Operation) :=
  [(1000, .put .ok "k" "v"), (1000, .ttl .ok "k" 5), (1000, .applySnapshot [⟨"k", "w", 0⟩])]

/-- After the TTL the entry never ends and the tree has the pair (0, k); after the snapshot the
entry never ends and the tree still has the pair of its old end. -/
theorem index_mirrors_fails :
    backToZero.Pairwise (fun a b => a.1 ≤ b.1) ∧ ¬ (after backToZero).Mirrors ∧
      loadedOver.Pairwise (fun a b => a.1 ≤ b.1) ∧ ¬ (after loadedOver).Mirrors := by
  have hzero : ((after backToZero).data.lookup "k").map Entry.exp = some 0 := by decide
  have hover : ((after loadedOver).data.lookup "k").map Entry.exp = some 0 := by decide
  -- an entry with the mark has no pair
  have hpair : ∀ (s : IndexedStore) (exp : Int), s.Mirrors →
      (s.data.lookup "k").map Entry.exp = some 0 → (⟨"k", exp⟩ : Expiration) ∉ s.index.pairs := by
    intro s exp hm hmark hin
    obtain ⟨x, hx, -, hne⟩ := (hm ⟨"k", exp⟩).mp hin
    rw [hx] at hmark
    exact hne (Option.some.inj hmark)
  refine ⟨by simp [backToZero], fun hm => hpair _ 0 hm hzero (by decide), by simp [loadedOver],
    fun hm => hpair _ 1005 hm hover (by decide)⟩

/-- Two keys that are past at 10, and one that never ends. -/
def twoPast : List (Int × Operation) :=
  [(0, .put .ok "a" "x"), (0, .ttl .ok "a" 5), (0, .put .ok "b" "y"), (0, .ttl .ok "b" 3),
    (0, .put .ok "c" "z")]

theorem mirrors_twoPast : (after twoPast).Mirrors := by
  have h₁ := (Operation.mirrors_iff mirrors_new 0 (.put .ok "a" "x")).mpr trivial
  have h₂ := (Operation.mirrors_iff h₁ 0 (.ttl .ok "a" 5)).mpr fun _ _ _ _ => by decide
  have h₃ := (Operation.mirrors_iff h₂ 0 (.put .ok "b" "y")).mpr trivial
  have h₄ := (Operation.mirrors_iff h₃ 0 (.ttl .ok "b" 3)).mpr fun _ _ _ _ => by decide
  exact (Operation.mirrors_iff h₄ 0 (.put .ok "c" "z")).mpr trivial

/-- A pass with a limit of one takes `b`, which ended first, and leaves `a`. -/
theorem cleanup_exact_twoPast :
    ((after twoPast).cleanupExpired 10 1).2 = 1 ∧
      ((after twoPast).cleanupExpired 10 1).1.data.lookup "b" = none ∧
      ((after twoPast).cleanupExpired 10 1).1.data.lookup "a" = some ⟨"x", 5⟩ := by
  obtain ⟨hn, -, hdata⟩ := (cleanup_exact 10 1 (after twoPast)).1 mirrors_twoPast
  have hexp : (after twoPast).expired 10 = {⟨"b", 3⟩, ⟨"a", 5⟩} := by decide
  have hsort : ((after twoPast).expired 10).sort (· ≤ ·) = [⟨"b", 3⟩, ⟨"a", 5⟩] := by
    rw [hexp, Finset.sort_insert, Finset.sort_singleton]
    · decide
    · decide
  rw [hsort] at hdata
  refine ⟨by rw [hn, hexp]; decide, ?_, ?_⟩
  · rw [hdata]
    rfl
  · rw [hdata]
    decide

end Cachey.Store
