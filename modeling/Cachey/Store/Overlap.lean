/-
# Replaying a log over a newer snapshot

The snapshot manager seals the log first and takes the snapshot afterwards, so a snapshot already
contains some of the records behind the seal; recovery loads the snapshot and applies ALL records
behind the seal.  A PUT or a DELETE applied twice is harmless.  A TTL record is not obviously so: it
renews a key that is alive and does nothing to one that is not.

* **A clock that stands still.**  An expired entry is as good as none, for every record
  (`live_replay`): a replay is followed on the LIVE entry of one key (`liveStep`).
* **Verdicts.**  What a stretch of the log says about a live key is one of three things: nothing, an
  entry of its own (a PUT or a DELETE stands in it, or a TTL record that is past), or a new expiry
  for the entry the key has.  Verdicts compose (`Verdict.next`), and saying the same thing twice is
  saying it once (`Verdict.on_on`).
* `replay_over_snapshot`: so the records that are applied a second time change nothing.
-/
import Cachey.Store.Install

namespace Cachey.Store

open Wal (Record)

/-! ## 1. Live entries at a clock that stands still -/

/-- An entry that has expired counts as none. -/
def alive (now : Int) (e : Option Entry) : Option Entry := e.filter fun e => !isExpired now e

@[simp] theorem alive_none (now : Int) : alive now none = none := rfl

theorem alive_some (now : Int) (e : Entry) :
    alive now (some e) = if isExpired now e then none else some e := by
  cases hexp : isExpired now e <;> simp [alive, hexp]

@[simp] theorem alive_alive (now : Int) (e : Option Entry) :
    alive now (alive now e) = alive now e := by
  cases e with
  | none => rfl
  | some e => cases hexp : isExpired now e <;> simp [alive_some, hexp]

/-- What one record makes of the live entry of `k`. -/
def liveStep (k : String) (now : Int) (e : Option Entry) (r : Record) : Option Entry :=
  alive now (keyStep k now r e)

theorem liveStep_alive (k : String) (now : Int) (e : Option Entry) (r : Record) :
    liveStep k now (alive now e) r = liveStep k now e r := by
  cases e with
  | none => rfl
  | some e =>
    cases hexp : isExpired now e with
    | false => simp [alive_some, hexp]
    | true =>
      have hgone : alive now (some e) = none := by simp [alive_some, hexp]
      rw [hgone]
      unfold liveStep keyStep
      by_cases hk : r.key = k
      · cases hop : r.op <;> simp [hk, hexp, hgone]
      · simp [hk, hgone]

namespace CacheyStore

/-- **A replay, seen on the live entry of a key.** -/
theorem live_replayAt (k : String) (now : Int) : ∀ (recs : List Record) (s : CacheyStore),
    (s.replayAt now recs).live now k = recs.foldl (liveStep k now) (s.live now k)
  | [], _ => rfl
  | r :: recs, s => by
    have hone : (s.applyRecord now r).1.live now k = liveStep k now (s.live now k) r := by
      calc (s.applyRecord now r).1.live now k
          = alive now (keyStep k now r (s.data.lookup k)) := by
            rw [live, lookup_applyRecord, alive]
        _ = liveStep k now (s.live now k) r := (liveStep_alive k now _ r).symm
    have hrest := live_replayAt k now recs (s.applyRecord now r).1
    rw [hone] at hrest
    exact hrest

end CacheyStore

/-! ## 2. What a stretch of the log says about a key -/

/-- What a stretch of the log says about a live key. -/
inductive Verdict where
  /-- nothing -/
  | silent
  /-- the key has this entry, or is gone, whatever it had before -/
  | fixed (e : Option Entry)
  /-- the key keeps its value and ends at `exp`, if it is there -/
  | renewed (exp : Int)

namespace Verdict

/-- The entry of a key after the verdict. -/
def on : Verdict → Option Entry → Option Entry
  | silent, e => e
  | fixed e, _ => e
  | renewed exp, e => e.map fun e => { e with exp := exp }

def next : Verdict → Verdict → Verdict
  | v, silent => v
  | _, fixed e => fixed e
  | silent, renewed exp => renewed exp
  | fixed e, renewed exp => fixed (e.map fun e => { e with exp := exp })
  | renewed _, renewed exp => renewed exp

theorem on_next (v w : Verdict) (e : Option Entry) : (v.next w).on e = w.on (v.on e) := by
  cases w with
  | silent => cases v <;> rfl
  | fixed x => cases v <;> rfl
  | renewed exp => cases v <;> cases e <;> rfl

/-- **A verdict given twice is a verdict given once.** -/
theorem on_on (v : Verdict) (e : Option Entry) : v.on (v.on e) = v.on e := by
  cases v with
  | silent => rfl
  | fixed x => rfl
  | renewed exp => cases e <;> rfl

end Verdict

/-- The verdict of one record.  A TTL record whose time is past ends the key. -/
def verdict (k : String) (now : Int) (r : Record) : Verdict :=
  if r.key ≠ k then .silent
  else match r.op with
    | .put => .fixed (some { value := r.val, exp := 0 })
    | .delete => .fixed none
    | .ttl => if r.exp ≠ 0 ∧ r.exp ≤ now then .fixed none else .renewed r.exp
    | _ => .silent

/-- The verdict of a stretch of the log. -/
def verdictOf (k : String) (now : Int) (recs : List Record) : Verdict :=
  recs.foldl (fun v r => v.next (verdict k now r)) .silent

variable {k : String} {now : Int} {e : Option Entry}

theorem liveStep_eq (h : alive now e = e) (r : Record) :
    liveStep k now e r = (verdict k now r).on e := by
  unfold liveStep keyStep verdict
  by_cases hk : r.key = k
  · cases hop : r.op with
    | put => simp [hk, Verdict.on, alive_some, isExpired]
    | delete => simp [hk, Verdict.on]
    | ttl =>
      cases e with
      | none => by_cases hpast : r.exp ≠ 0 ∧ r.exp ≤ now <;> simp [hk, hpast, Verdict.on]
      | some e =>
        have hlive : isExpired now e = false := by
          cases hexp : isExpired now e with
          | false => rfl
          | true => simp [alive_some, hexp] at h
        by_cases hpast : r.exp ≠ 0 ∧ r.exp ≤ now
        · have hends : isExpired now { e with exp := r.exp } = true := by simp [isExpired, hpast]
          simp [hk, hlive, hpast, Verdict.on, alive_some, hends]
        · have hlasts : isExpired now { e with exp := r.exp } = false := by
            simpa [isExpired] using hpast
          simp [hk, hlive, hpast, Verdict.on, alive_some, hlasts]
    | noop | config | hotStuff | membership | other _ => simpa [hk, Verdict.on] using h
  · simpa [hk, Verdict.on] using h

/-- **A stretch of the log** does to a live entry what its verdict says. -/
theorem foldl_liveStep (h : alive now e = e) (recs : List Record) :
    recs.foldl (liveStep k now) e = (verdictOf k now recs).on e := by
  induction recs using List.reverseRecOn with
  | nil => rfl
  | append_singleton recs r ih =>
    have hlive : alive now (recs.foldl (liveStep k now) e) = recs.foldl (liveStep k now) e := by
      cases recs using List.reverseRecOn with
      | nil => exact h
      | append_singleton recs r => simp [liveStep]
    rw [List.foldl_append, List.foldl_cons, List.foldl_nil, liveStep_eq hlive, ih]
    simp [verdictOf, Verdict.on_next]

/-! ## 3. The snapshot in between

The records are split in three: those before the seal, those between seal and snapshot, those behind
the snapshot.  The first and the last part are applied once on either side; the middle part is
applied twice after a recovery, and its verdict given twice is its verdict given once. -/

theorem live_applySnapshot (it : Iteration ((_ : String) × Entry)) (now : Int) (k : String)
    (s : CacheyStore) :
    (newCacheyStore.applySnapshot (s.snapshot it now)).live now k = s.live now k := by
  have hget := lookup_applySnapshot_snapshot it now s newCacheyStore k
  have hempty : newCacheyStore.data.lookup k = none := rfl
  rw [CacheyStore.live, hget, hempty, Option.or_none]
  exact alive_alive now (s.data.lookup k)

/-- **Replay over a newer snapshot is harmless.**  The store after the first `k` records is saved
and loaded into an empty store, and the records from the seal `b` on are applied again.  From the
time of all this on, it answers like the store that applied every record once. -/
theorem replay_over_snapshot (it : Iteration ((_ : String) × Entry)) (now : Int)
    (recs : List Record) {b k : Nat} (hseal : b ≤ k) (hlen : k ≤ recs.length) {t : Int}
    (ht : now ≤ t) (key : String) :
    ((newCacheyStore.applySnapshot
        ((newCacheyStore.replayAt now (recs.take k)).snapshot it now)).replayAt now
          (recs.drop b)).answer t key =
      (newCacheyStore.replayAt now recs).answer t key := by
  -- before the seal, between seal and snapshot, behind the snapshot
  obtain ⟨old, twice, new, rfl, hb, hk⟩ : ∃ old twice new : List Record,
      recs = old ++ (twice ++ new) ∧ old.length = b ∧ (old ++ twice).length = k := by
    refine ⟨recs.take b, (recs.drop b).take (k - b), recs.drop k, ?_, by simp; omega, ?_⟩
    · have hsplit : recs.drop k = (recs.drop b).drop (k - b) := by
        rw [List.drop_drop]
        congr 1
        omega
      rw [hsplit, List.take_append_drop, List.take_append_drop]
    · simp
      omega
  have htake : (old ++ (twice ++ new)).take k = old ++ twice := by
    rw [← List.append_assoc, ← hk, List.take_left]
  have hdrop : (old ++ (twice ++ new)).drop b = twice ++ new := by
    rw [← hb, List.drop_left]
  rw [htake, hdrop, answer_of_live ht, answer_of_live ht]
  congr 1
  -- the live entry when the seal is set
  obtain ⟨e, hlive, he⟩ : ∃ e, alive now e = e ∧
      (newCacheyStore.replayAt now old).live now key = e :=
    ⟨_, alive_alive now ((newCacheyStore.replayAt now old).data.lookup key), rfl⟩
  have hsaved : (newCacheyStore.replayAt now (old ++ twice)).live now key =
      (verdictOf key now twice).on e := by
    rw [CacheyStore.replayAt_append, CacheyStore.live_replayAt, he, foldl_liveStep hlive]
  have hagain : alive now ((verdictOf key now twice).on e) = (verdictOf key now twice).on e := by
    rw [← hsaved]
    exact alive_alive now ((newCacheyStore.replayAt now (old ++ twice)).data.lookup key)
  have hfirst : twice.foldl (liveStep key now) e = (verdictOf key now twice).on e :=
    foldl_liveStep hlive twice
  have hsecond : twice.foldl (liveStep key now) ((verdictOf key now twice).on e) =
      (verdictOf key now twice).on e := by
    rw [foldl_liveStep hagain, Verdict.on_on]
  rw [CacheyStore.live_replayAt, live_applySnapshot, hsaved, CacheyStore.replayAt_append,
    CacheyStore.live_replayAt, he, List.foldl_append, List.foldl_append, hfirst, hsecond]

/-- A key is renewed twice; the snapshot already has the first renewal, which recovery applies
again. -/
theorem replay_over_snapshot_renewed :
    ((newCacheyStore.applySnapshot
        ((newCacheyStore.replayAt 5 (putThenTwoTTLs.take 2)).snapshot (.asStored _) 5)).replayAt 5
          (putThenTwoTTLs.drop 1)).answer 50 "k" = .ok "v" :=
  (replay_over_snapshot (.asStored _) 5 putThenTwoTTLs (b := 1) (k := 2) (by decide) (by decide)
    (t := 50) (by decide) "k").trans (by decide)

end Cachey.Store
