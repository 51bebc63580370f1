/-
# Installing a snapshot over a store that is not empty

`OpenRaftNode` wires two callbacks into the Raft node: one serializes the live entries of the
store, the other decodes them and calls `ApplySnapshot`.  A follower that lags installs the
snapshot over the data it has, and `ApplySnapshot` ADDS entries: a key the receiver has and the
snapshot does not is kept.

* `lookup_install`: the store after the installation, key by key;
* `install_replaces_iff`: it answers like the store the snapshot was taken of exactly when every
  key that is alive in the receiver is alive in that store as well.

JSON is a parameter with the round trip as its law (`SnapshotCodec`); `plainCodec` has it.
-/
import Cachey.Lib.Code
import Cachey.Store.Replay

namespace Cachey.Store

open Wal (Record SnapshotEntry)

/-! ## 1. The callbacks -/

/-- `json.Marshal` and `json.Unmarshal` on lists of snapshot entries. -/
structure SnapshotCodec where
  marshal : List SnapshotEntry → Bytes
  unmarshal : Bytes → Option (List SnapshotEntry)
  unmarshal_marshal : ∀ entries, unmarshal (marshal entries) = some entries

/-- The callback that serializes the state machine. -/
def takeSnapshotFn (C : SnapshotCodec) (it : Iteration ((_ : String) × Entry)) (now : Int)
    (s : CacheyStore) : Bytes :=
  C.marshal (s.snapshot it now)

/-- The callback that installs a snapshot; `none` is the decoding error. -/
def applySnapshotFn (C : SnapshotCodec) (data : Bytes) (s : CacheyStore) : Option CacheyStore :=
  (C.unmarshal data).map fun entries => s.applySnapshot entries

/-! ## 2. Loading entries

`ApplySnapshot` is a loop of assignments into the map the store already has.  The keys of a snapshot
are distinct, so each of them ends with its own entry; a key that does not occur is not visited. -/

theorem lookup_loadEntry (k : String) (s : CacheyStore) (e : SnapshotEntry) :
    (s.loadEntry e).data.lookup k =
      if k = e.key then some { value := e.val, exp := e.exp } else s.data.lookup k :=
  GoMap.lookup_insert_of

variable {k : String} {now t : Int} {s : CacheyStore} {e : Entry}

theorem lookup_applySnapshot_of_absent : ∀ (entries : List SnapshotEntry)
    (s : CacheyStore), (∀ e ∈ entries, e.key ≠ k) →
      (s.applySnapshot entries).data.lookup k = s.data.lookup k
  | [], _, _ => rfl
  | e :: entries, s, h => by
    have hk : k ≠ e.key := fun heq => h e List.mem_cons_self heq.symm
    have ih := lookup_applySnapshot_of_absent entries (s.loadEntry e)
      fun e' he' => h e' (List.mem_cons_of_mem _ he')
    rw [lookup_loadEntry, if_neg hk] at ih
    exact ih

theorem lookup_applySnapshot_of_mem {e : SnapshotEntry} : ∀ (entries : List SnapshotEntry)
    (s : CacheyStore), e ∈ entries → (∀ e' ∈ entries, e'.key = e.key → e' = e) →
      (s.applySnapshot entries).data.lookup e.key = some { value := e.val, exp := e.exp }
  | e₁ :: entries, s, hmem, hone => by
    have htail : ∀ e' ∈ entries, e'.key = e.key → e' = e :=
      fun e' he' => hone e' (List.mem_cons_of_mem _ he')
    by_cases hlater : e ∈ entries
    · exact lookup_applySnapshot_of_mem entries (s.loadEntry e₁) hlater htail
    · -- the head is the entry, and nothing behind it has the key
      have hhead : e = e₁ := by
        rcases List.mem_cons.mp hmem with h | h
        · exact h
        · exact absurd h hlater
      subst hhead
      have habsent : ∀ e' ∈ entries, e'.key ≠ e.key :=
        fun e' he' hkey => hlater (htail e' he' hkey ▸ he')
      have hrest := lookup_applySnapshot_of_absent entries (s.loadEntry e) habsent
      rw [lookup_loadEntry, if_pos rfl] at hrest
      exact hrest

/-! ## 3. Taking and installing -/

theorem mem_snapshot {it : Iteration ((_ : String) × Entry)} {e : SnapshotEntry} :
    e ∈ s.snapshot it now ↔ ∃ entry, s.data.lookup e.key = some entry ∧
      isExpired now entry = false ∧ entry = { value := e.val, exp := e.exp } := by
  simp only [CacheyStore.snapshot, List.mem_filterMap, it.mem_order, CacheyStore.snapshotEntry]
  constructor
  · rintro ⟨⟨k, entry⟩, hmem, hsome⟩
    split at hsome
    next => cases hsome
    next hlive =>
      cases hsome
      exact ⟨entry, AList.mem_lookup_iff.mpr hmem, by simpa using hlive, rfl⟩
  · rintro ⟨entry, hget, hlive, rfl⟩
    exact ⟨⟨e.key, _⟩, AList.mem_lookup_iff.mp hget, by simp [hlive]⟩

/-- The entry of a key that is alive at `now`. -/
def CacheyStore.live (now : Int) (k : String) (s : CacheyStore) : Option Entry :=
  (s.data.lookup k).filter fun e => !isExpired now e

theorem live_eq_some_iff :
    s.live now k = some e ↔ s.data.lookup k = some e ∧ isExpired now e = false := by
  simp [CacheyStore.live, Option.filter_eq_some_iff]

/-- A snapshot loaded into a store, key by key: a live key of the store it was taken of has the
entry it has there; every other key has the entry it had. -/
theorem lookup_applySnapshot_snapshot (it : Iteration ((_ : String) × Entry)) (now : Int)
    (s₁ s₂ : CacheyStore) (k : String) : (s₂.applySnapshot (s₁.snapshot it now)).data.lookup k =
      (s₁.live now k).or (s₂.data.lookup k) := by
  cases hlive : s₁.live now k with
  | none =>
    refine lookup_applySnapshot_of_absent _ _ fun e he hkey => ?_
    obtain ⟨entry, hget, hexp, _⟩ := mem_snapshot.mp he
    have hsome := live_eq_some_iff.mpr ⟨hkey ▸ hget, hexp⟩
    rw [hlive] at hsome
    cases hsome
  | some entry =>
    obtain ⟨hget, hexp⟩ := live_eq_some_iff.mp hlive
    refine lookup_applySnapshot_of_mem (e := ⟨k, entry.value, entry.exp⟩) _ _
      (mem_snapshot.mpr ⟨entry, hget, hexp, rfl⟩) ?_
    rintro ⟨k', v, x⟩ he' rfl
    obtain ⟨entry', hget', _, rfl⟩ := mem_snapshot.mp he'
    cases hget.symm.trans hget'
    rfl

/-- **The installed store, key by key.**  A live key of the sender has the sender's entry; every
other key has the entry the receiver had. -/
theorem lookup_install (C : SnapshotCodec) (it : Iteration ((_ : String) × Entry)) (now : Int)
    (s₁ s₂ : CacheyStore) : ∃ s, applySnapshotFn C (takeSnapshotFn C it now s₁) s₂ = some s ∧
      ∀ k, s.data.lookup k = (s₁.live now k).or (s₂.data.lookup k) := by
  refine ⟨s₂.applySnapshot (s₁.snapshot it now), ?_, lookup_applySnapshot_snapshot it now s₁ s₂⟩
  simp [applySnapshotFn, takeSnapshotFn, C.unmarshal_marshal]

/-! ## 4. When the installation replaces the state -/

theorem isExpired_mono (h : now ≤ t) (hexp : isExpired now e = true) : isExpired t e = true := by
  simp only [isExpired, ne_eq, Bool.and_eq_true, decide_eq_true_eq] at hexp ⊢
  exact ⟨hexp.1, le_trans hexp.2 h⟩

/-- From `now` on a store answers by the entries that are alive at `now`. -/
theorem answer_of_live (h : now ≤ t) (k : String) (s : CacheyStore) :
    s.answer t k = answerOf t (s.live now k) := by
  rw [CacheyStore.answer_eq]
  cases hget : s.data.lookup k with
  | none => simp [CacheyStore.live, hget]
  | some e =>
    by_cases hexp : isExpired now e = true
    · have hnone : s.live now k = none := by simp [CacheyStore.live, hget, hexp]
      simp [hnone, answerOf, isExpired_mono h hexp]
    · have hsome : s.live now k = some e := live_eq_some_iff.mpr ⟨hget, by simpa using hexp⟩
      simp [hsome, answerOf]

/-- **When a snapshot replaces the state machine.**  For any two stores: the installation succeeds,
and the receiver answers like the sender from the time of the snapshot on, exactly when every key
alive in the receiver at that time is alive in the sender.  Such a key survives the installation: a
snapshot has no way to say that a key is gone. -/
theorem install_replaces_iff (C : SnapshotCodec) (it : Iteration ((_ : String) × Entry))
    (now : Int) (s₁ s₂ : CacheyStore) :
    (∃ s, applySnapshotFn C (takeSnapshotFn C it now s₁) s₂ = some s ∧
      ∀ t, now ≤ t → ∀ k, s.answer t k = s₁.answer t k) ↔
      ∀ k, (s₂.live now k).isSome → (s₁.live now k).isSome := by
  obtain ⟨s, hs, hget⟩ := lookup_install C it now s₁ s₂
  have hlive : ∀ k, s.live now k = (s₁.live now k).or (s₂.live now k) := by
    intro k
    rw [CacheyStore.live, hget]
    cases h₁ : s₁.live now k with
    | none => rfl
    | some e => simp [(live_eq_some_iff.mp h₁).2]
  constructor
  · rintro ⟨s', hs', hsame⟩ k h₂
    cases hs.symm.trans hs'
    cases h₁ : s₁.live now k with
    | some e => rfl
    | none =>
      -- at `now` itself the receiver still answers with its own entry
      obtain ⟨e, he⟩ := Option.isSome_iff_exists.mp h₂
      have hans := hsame now (le_refl _) k
      rw [answer_of_live (le_refl _), answer_of_live (le_refl _), hlive, h₁, he] at hans
      simp [answerOf, (live_eq_some_iff.mp he).2] at hans
  · intro h
    refine ⟨s, hs, fun t ht k => ?_⟩
    rw [answer_of_live ht, answer_of_live ht, hlive]
    cases h₁ : s₁.live now k with
    | some e => rfl
    | none =>
      cases h₂ : s₂.live now k with
      | none => rfl
      | some e =>
        have hsome := h k (by rw [h₂]; rfl)
        rw [h₁] at hsome
        cases hsome

def plainCodec : SnapshotCodec :=
  let entry : Code SnapshotEntry := (Code.text.pair (Code.text.pair Code.int)).through
    (fun e => (e.key, e.val, e.exp)) (fun x => some ⟨x.1, x.2.1, x.2.2⟩) (fun _ => rfl)
    (fun h => by cases h; rfl)
  { marshal := (Code.list entry).enc
    unmarshal := (Code.list entry).parse
    unmarshal_marshal := (Code.list entry).parse_enc }

/-- A key is put at time 0. -/
def putK : Record × Int := ({ op := .put, key := "k", val := "v" }, 0)

/-- It is deleted at time 1. -/
def deleteK : Record × Int := ({ op := .delete, key := "k" }, 1)

/-- The sender has applied the deletion and the receiver has not.  The snapshot is all the receiver
will hear of it, and after the installation it still has the key. -/
theorem install_replaces_fails :
    ¬ ∃ s, applySnapshotFn plainCodec (takeSnapshotFn plainCodec (.asStored _) 2
        (newCacheyStore.replay [putK, deleteK])) (newCacheyStore.replay [putK]) = some s ∧
      ∀ t, 2 ≤ t → ∀ k, s.answer t k = (newCacheyStore.replay [putK, deleteK]).answer t k := by
  rintro ⟨s, hs, hsame⟩
  obtain ⟨s', hs', hget⟩ := lookup_install plainCodec (.asStored _) 2
    (newCacheyStore.replay [putK, deleteK]) (newCacheyStore.replay [putK])
  cases hs.symm.trans hs'
  have hans := hsame 2 (le_refl _) "k"
  rw [CacheyStore.answer_eq, hget] at hans
  exact absurd hans (by decide)

end Cachey.Store
