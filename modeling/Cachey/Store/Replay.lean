/-
# Replaying a log at two different times

`ApplyRecord` reads the clock: a TTL record that finds its key expired drops the key, one that
finds it alive moves the expiry.  The same log therefore has one meaning for the replica that
applied each record when it was written and possibly ANOTHER one for the replica, or the recovery,
that applies it later.

The file says exactly when two schedules for one log agree.

* **One key at a time.**  What a record does to a key depends only on the entry of that key
  (`keyStep`), so a replay is looked at key by key.
* **Leases.**  What the log and a schedule say about a key is its `Lease`: the value of the last
  PUT and, newest first, the TTL records since then, each with the time it is applied at.  The
  lease is UNBROKEN when each of these records comes before the expiry set by the one before it.
  A lease is read off the records and their times; no store is involved.
* `lookup_replay`: the entry after the replay is that of the lease if it is unbroken; a broken
  one leaves no entry.
* `replay_agrees_iff`: two schedules give the same answers from their ends on exactly when, for
  every key, both leases are unbroken, both are broken, or the last expiry has passed anyway.
-/
import Cachey.Store.Store
import Mathlib.Data.Finset.Order

namespace Cachey.Store

open Wal (Record)

/-! ## 1. One key -/

/-- What one record does to the entry of `k`. -/
def keyStep (k : String) (now : Int) (r : Record) (e : Option Entry) : Option Entry :=
  if r.key ≠ k then e
  else match r.op, e with
    | .put, _ => some { value := r.val, exp := 0 }
    | .delete, _ => none
    | .ttl, some e => if isExpired now e then none else some { e with exp := r.exp }
    | _, e => e

/-- The answer for a key, from its entry. -/
def answerOf (now : Int) : Option Entry → Except StoreError String
  | none => .error .invalidKey
  | some e => if isExpired now e then .error .invalidKey else .ok e.value

namespace CacheyStore

@[simp] theorem data_unindex (key : String) (e : Entry) (s : CacheyStore) :
    (s.unindex key e).data = s.data := by
  unfold unindex
  split <;> rfl

theorem lookup_putLocked (k key value : String) (s : CacheyStore) :
    (s.putLocked key value).data.lookup k =
      if k = key then some { value := value, exp := 0 } else s.data.lookup k := by
  unfold putLocked
  cases hold : s.data.lookup key with
  | none => simp [GoMap.lookup_insert_of]
  | some old => simp [GoMap.lookup_insert_of]

theorem lookup_deleteLocked (k key : String) (now : Int) (s : CacheyStore) :
    (s.deleteLocked now key).1.data.lookup k =
      if k = key then none else s.data.lookup k := by
  unfold deleteLocked
  cases hold : s.data.lookup key with
  | none =>
    by_cases hk : k = key
    · subst hk
      simp [hold]
    · simp [hk]
  | some old => simp [GoMap.lookup_erase_of]

theorem lookup_ttlAtLocked (k key : String) (now exp : Int) (s : CacheyStore) :
    (s.ttlAtLocked now key exp).1.data.lookup k =
      if k = key then
        (s.data.lookup key).bind fun e => if isExpired now e then none else some { e with exp := exp }
      else s.data.lookup k := by
  unfold ttlAtLocked
  cases hold : s.data.lookup key with
  | none =>
    by_cases hk : k = key
    · subst hk
      simp [hold]
    · simp [hk]
  | some old =>
    by_cases hexp : isExpired now old = true
    · simp [hexp, GoMap.lookup_erase_of]
    · simp [hexp, GoMap.lookup_insert_of]

theorem lookup_applyRecord (k : String) (now : Int) (r : Record) (s : CacheyStore) :
    (s.applyRecord now r).1.data.lookup k = keyStep k now r (s.data.lookup k) := by
  by_cases hk : r.key = k
  · subst hk
    cases hop : r.op with
    | put => simp [applyRecord, keyStep, hop, lookup_putLocked]
    | delete => simp [applyRecord, keyStep, hop, lookup_deleteLocked]
    | ttl =>
      cases hold : s.data.lookup r.key with
      | none => simp [applyRecord, keyStep, hop, lookup_ttlAtLocked, hold]
      | some e => simp [applyRecord, keyStep, hop, lookup_ttlAtLocked, hold]
    | noop | config | hotStuff | membership | other _ => simp [applyRecord, keyStep, hop]
  · have hk' : k ≠ r.key := fun h => hk h.symm
    cases hop : r.op with
    | put => simp [applyRecord, keyStep, hop, lookup_putLocked, hk, hk']
    | delete => simp [applyRecord, keyStep, hop, lookup_deleteLocked, hk, hk']
    | ttl => simp [applyRecord, keyStep, hop, lookup_ttlAtLocked, hk, hk']
    | noop | config | hotStuff | membership | other _ => simp [applyRecord, keyStep, hop, hk]

/-- What `Get` answers is read off the entry of the key. -/
theorem answer_eq (now : Int) (k : String) (s : CacheyStore) :
    s.answer now k = answerOf now (s.data.lookup k) := by
  unfold answer get
  cases s.data.lookup k with
  | none => rfl
  | some e => by_cases h : isExpired now e = true <;> simp [answerOf, h]

/-- Records applied one after another, each at its time. -/
def replay (events : List (Record × Int)) (s : CacheyStore) : CacheyStore :=
  events.foldl (fun s ev => (s.applyRecord ev.2 ev.1).1) s

/-- Records applied one after another while the clock shows `now`. -/
def replayAt (now : Int) (recs : List Record) (s : CacheyStore) : CacheyStore :=
  s.replay (recs.map fun r => (r, now))

theorem replayAt_append (now : Int) (recs recs' : List Record) (s : CacheyStore) :
    s.replayAt now (recs ++ recs') = (s.replayAt now recs).replayAt now recs' := by
  simp [replayAt, replay]

theorem replay_concat (events : List (Record × Int)) (ev : Record × Int) (s : CacheyStore) :
    s.replay (events ++ [ev]) = ((s.replay events).applyRecord ev.2 ev.1).1 := by
  simp [replay]

end CacheyStore

/-! ## 2. Leases -/

/-- What a log says about a key that is put and not deleted since: its value, and the TTL records
since the PUT as (expiry, time of application), newest first. -/
structure Lease where
  value : String
  ttls : List (Int × Int)

/-- The expiry the newest TTL record sets; none (0) without one. -/
def lastExp : List (Int × Int) → Int
  | [] => 0
  | (exp, _) :: _ => exp

@[simp] theorem lastExp_nil : lastExp [] = 0 := rfl

@[simp] theorem lastExp_cons (x : Int × Int) (l : List (Int × Int)) : lastExp (x :: l) = x.1 := rfl

/-- Each TTL record is applied before the expiry that stands then. -/
def unbroken : List (Int × Int) → Bool
  | [] => true
  | (_, now) :: rest => (lastExp rest = 0 || now < lastExp rest) && unbroken rest

/-- How one event changes the lease of `k`. -/
def leaseStep (k : String) (l : Option Lease) (ev : Record × Int) : Option Lease :=
  if ev.1.key ≠ k then l
  else match ev.1.op, l with
    | .put, _ => some { value := ev.1.val, ttls := [] }
    | .delete, _ => none
    | .ttl, some l => some { l with ttls := (ev.1.exp, ev.2) :: l.ttls }
    | _, l => l

/-- The lease of `k` after the events. -/
def leaseOf (k : String) (events : List (Record × Int)) : Option Lease :=
  events.foldl (leaseStep k) none

/-- The entry an unbroken lease stands for. -/
def Lease.entry (l : Lease) : Option Entry :=
  if unbroken l.ttls then some { value := l.value, exp := lastExp l.ttls } else none

/-- **One step.**  The entry of the lease follows the record. -/
theorem entry_leaseStep (k : String) (l : Option Lease) (ev : Record × Int) :
    (leaseStep k l ev).bind Lease.entry = keyStep k ev.2 ev.1 (l.bind Lease.entry) := by
  obtain ⟨r, now⟩ := ev
  by_cases hk : r.key = k
  · cases hop : r.op with
    | put => simp [leaseStep, keyStep, hk, hop, Lease.entry, unbroken]
    | delete => simp [leaseStep, keyStep, hk, hop]
    | ttl =>
      cases l with
      | none => simp [leaseStep, keyStep, hk, hop]
      | some l =>
        by_cases hu : unbroken l.ttls = true
        · -- a live key: dropped exactly when the standing expiry has passed
          by_cases hzero : lastExp l.ttls = 0
          · simp [leaseStep, keyStep, hk, hop, Lease.entry, unbroken, hu, hzero, isExpired]
          · by_cases hnow : now < lastExp l.ttls
            · simp [leaseStep, keyStep, hk, hop, Lease.entry, unbroken, hu, hnow, isExpired,
                Int.not_le.mpr hnow]
            · simp [leaseStep, keyStep, hk, hop, Lease.entry, unbroken, hu, hnow, hzero, isExpired,
                Int.not_lt.mp hnow]
        · -- a key that is gone already: a TTL record does not bring it back
          simp [leaseStep, keyStep, hk, hop, Lease.entry, unbroken, hu]
    | noop | config | hotStuff | membership | other _ => simp [leaseStep, keyStep, hk, hop]
  · simp [leaseStep, keyStep, hk]

/-- **The whole replay.**  From the empty store the entry of a key is that of its lease. -/
theorem lookup_replay (k : String) (events : List (Record × Int)) :
    (newCacheyStore.replay events).data.lookup k = (leaseOf k events).bind Lease.entry := by
  induction events using List.reverseRecOn with
  | nil => rfl
  | append_singleton events ev ih =>
    rw [CacheyStore.replay_concat, CacheyStore.lookup_applyRecord, ih, ← entry_leaseStep]
    simp [leaseOf]

/-! ## 3. Two schedules for one log -/

/-- Two leases that differ in the times of application only. -/
inductive SameTerms : Option Lease → Option Lease → Prop where
  | absent : SameTerms none none
  | present {a b : Lease} (hvalue : a.value = b.value)
      (hexps : a.ttls.map Prod.fst = b.ttls.map Prod.fst) : SameTerms (some a) (some b)

theorem lastExp_eq_of_map {l l' : List (Int × Int)} (h : l.map Prod.fst = l'.map Prod.fst) :
    lastExp l = lastExp l' := by
  cases l with
  | nil =>
    cases l' with
    | nil => rfl
    | cons x l' => simp at h
  | cons x l =>
    cases l' with
    | nil => simp at h
    | cons y l' =>
      obtain ⟨hxy, _⟩ := List.cons.inj h
      exact hxy

theorem SameTerms.step {a b : Option Lease} (h : SameTerms a b) (k : String) (r : Record)
    (now now' : Int) : SameTerms (leaseStep k a (r, now)) (leaseStep k b (r, now')) := by
  by_cases hk : r.key = k
  · cases hop : r.op with
    | put =>
      simp only [leaseStep, hk, hop, ne_eq, not_true_eq_false, if_false]
      exact .present rfl rfl
    | delete =>
      simp only [leaseStep, hk, hop, ne_eq, not_true_eq_false, if_false]
      exact .absent
    | ttl =>
      cases h with
      | absent =>
        simp only [leaseStep, hk, hop, ne_eq, not_true_eq_false, if_false]
        exact .absent
      | present hvalue hexps =>
        simp only [leaseStep, hk, hop, ne_eq, not_true_eq_false, if_false]
        exact .present hvalue (by simp [hexps])
    | noop | config | hotStuff | membership | other _ => simpa [leaseStep, hk, hop] using h
  · simpa [leaseStep, hk] using h

theorem SameTerms.run (k : String) : ∀ (recs : List Record) (A B : List Int),
    A.length = recs.length → B.length = recs.length → ∀ {a b : Option Lease}, SameTerms a b →
      SameTerms ((recs.zip A).foldl (leaseStep k) a) ((recs.zip B).foldl (leaseStep k) b)
  | [], _, _, _, _, _, _, h => h
  | r :: recs, now :: A, now' :: B, hA, hB, _, _, h =>
    SameTerms.run k recs A B (Nat.succ.inj hA) (Nat.succ.inj hB) (h.step k r now now')

/-- The leases two schedules give the key `k` lead to the same answers from the ends of both
schedules on: equally broken, or run out.  Both leases have the same value and the same expiries,
since these stand in the records; only the times of application can make one break and the other
not. -/
def LeasesAgree (k : String) (recs : List Record) (A B : List Int) : Prop :=
  match leaseOf k (recs.zip A), leaseOf k (recs.zip B) with
  | some a, some b =>
    unbroken a.ttls = unbroken b.ttls ∨
      lastExp a.ttls ≠ 0 ∧ ∃ now ∈ A ++ B, lastExp a.ttls ≤ now
  | _, _ => True

theorem answer_replay (now : Int) (k : String) (events : List (Record × Int)) :
    (newCacheyStore.replay events).answer now k =
      answerOf now ((leaseOf k events).bind Lease.entry) := by
  rw [CacheyStore.answer_eq, lookup_replay]

/-- An entry answers like no entry at all from the times `ts` on exactly when it has an expiry,
and one of these times reaches it. -/
theorem answers_nothing_iff (e : Entry) (ts : List Int) :
    (∀ t, (∀ now ∈ ts, now ≤ t) → answerOf t (some e) = answerOf t none) ↔
      e.exp ≠ 0 ∧ ∃ now ∈ ts, e.exp ≤ now := by
  constructor
  · intro h
    by_contra hcon
    -- at `exp - 1`, or at any time if there is no expiry, the entry still answers
    obtain ⟨t, ht, hlive⟩ : ∃ t, (∀ now ∈ ts, now ≤ t) ∧ isExpired t e = false := by
      by_cases hzero : e.exp = 0
      · obtain ⟨t, ht⟩ := ts.toFinset.exists_le
        exact ⟨t, fun now hnow => ht now (List.mem_toFinset.mpr hnow), by simp [isExpired, hzero]⟩
      · have hlt : ¬ e.exp ≤ e.exp - 1 := by omega
        refine ⟨e.exp - 1, fun now hnow => ?_, by simp [isExpired, hlt]⟩
        by_contra hlate
        exact hcon ⟨hzero, now, hnow, by omega⟩
    have hsame := h t ht
    simp [answerOf, hlive] at hsame
  · rintro ⟨hne, now, hnow, hle⟩ t ht
    have hexp : isExpired t e = true := by
      simp [isExpired, hne, le_trans hle (ht now hnow)]
    simp [answerOf, hexp]

/-- For one key: the answers agree from both ends on exactly when the leases do. -/
theorem answers_agree_iff (k : String) (recs : List Record) (A B : List Int)
    (hA : A.length = recs.length) (hB : B.length = recs.length) :
    (∀ t, (∀ now ∈ A ++ B, now ≤ t) →
      (newCacheyStore.replay (recs.zip A)).answer t k =
        (newCacheyStore.replay (recs.zip B)).answer t k) ↔ LeasesAgree k recs A B := by
  have hterms : SameTerms (leaseOf k (recs.zip A)) (leaseOf k (recs.zip B)) :=
    SameTerms.run k recs A B hA hB .absent
  simp only [answer_replay, LeasesAgree]
  generalize leaseOf k (recs.zip A) = a at hterms
  generalize leaseOf k (recs.zip B) = b at hterms
  cases hterms with
  | absent => simp
  | @present a b hvalue hexps =>
    have hexp := lastExp_eq_of_map hexps
    have hquiet := answers_nothing_iff { value := a.value, exp := lastExp a.ttls } (A ++ B)
    cases ha : unbroken a.ttls <;> cases hb : unbroken b.ttls
    · simp [Lease.entry, ha, hb]
    · simp only [Option.bind_some, Lease.entry, ha, hb, Bool.false_eq_true, if_false, if_true,
        false_or, ← hvalue, ← hexp]
      rw [← hquiet]
      exact forall₂_congr fun t _ => eq_comm
    · simpa [Lease.entry, ha, hb] using hquiet
    · simp [Lease.entry, ha, hb, hvalue, hexp]

/-- **When a replay does not depend on the clock.**  For any log and any two schedules for it, the
two stores answer alike from the ends of both schedules on exactly when the leases of every key
agree. -/
theorem replay_agrees_iff (recs : List Record) (A B : List Int)
    (hA : A.length = recs.length) (hB : B.length = recs.length) :
    (∀ t, (∀ now ∈ A ++ B, now ≤ t) → ∀ k,
      (newCacheyStore.replay (recs.zip A)).answer t k =
        (newCacheyStore.replay (recs.zip B)).answer t k) ↔
      ∀ k, LeasesAgree k recs A B := by
  constructor
  · intro h k
    exact (answers_agree_iff k recs A B hA hB).mp fun t ht => h t ht k
  · intro h t ht k
    exact (answers_agree_iff k recs A B hA hB).mpr (h k) t ht

/-- A key that is put, given the expiry 10 and then the expiry 100. -/
def putThenTwoTTLs : List Record :=
  [{ op := .put, key := "k", val := "v" }, { op := .ttl, key := "k", exp := 10 },
    { op := .ttl, key := "k", exp := 100 }]

/-- Two schedules that both renew the key in time. -/
theorem replay_agrees_inTime :
    ([1, 2, 3] : List Int).Pairwise (· ≤ ·) ∧ ([1, 5, 9] : List Int).Pairwise (· ≤ ·) ∧
      ∀ t : Int, (∀ now ∈ [1, 2, 3] ++ [1, 5, 9], now ≤ t) → ∀ k,
        (newCacheyStore.replay (putThenTwoTTLs.zip [1, 2, 3])).answer t k =
          (newCacheyStore.replay (putThenTwoTTLs.zip [1, 5, 9])).answer t k := by
  refine ⟨by decide, by decide, ?_⟩
  refine (replay_agrees_iff putThenTwoTTLs [1, 2, 3] [1, 5, 9] rfl rfl).mpr fun k => ?_
  by_cases hk : "k" = k
  · subst hk
    exact Or.inl rfl
  · simp [LeasesAgree, leaseOf, leaseStep, putThenTwoTTLs, hk]

/-- Applied at 3 the second TTL record renews the key; applied at 20 it finds the key expired and
drops it.  At 20, and until 100, one store has the key and the other does not. -/
theorem replay_agrees_fails :
    ([1, 2, 3] : List Int).Pairwise (· ≤ ·) ∧ ([1, 2, 20] : List Int).Pairwise (· ≤ ·) ∧
      ¬ ∀ t : Int, (∀ now ∈ [1, 2, 3] ++ [1, 2, 20], now ≤ t) → ∀ k,
        (newCacheyStore.replay (putThenTwoTTLs.zip [1, 2, 3])).answer t k =
          (newCacheyStore.replay (putThenTwoTTLs.zip [1, 2, 20])).answer t k := by
  refine ⟨by decide, by decide, fun h => ?_⟩
  have hsame := h 20 (by decide) "k"
  rw [answer_replay, answer_replay] at hsame
  exact absurd hsame (by decide)

end Cachey.Store
