/-
# The replicated log

`Log` is `raft.Log`: a compaction base and a slice of entries whose first element is a dummy that
carries the term of the base.  An index outside `base .. lastIndex` is a run-time panic in the
source; here it reads the zero entry, and the lemmas of this module say what is read INSIDE.

A compacted log still stands for the entries below its base.  `FullLog` is a log that forgets
nothing; `l.Shows a` says that `l` is `a` with the entries up to the base of `l` forgotten, and
every operation of the log is then an operation on plain lists, in which the base does not show.
`l.Holds F` is the case in which all entries from index 1 on are known: they are `F`.
-/
import Cachey.Lib.GoMap
import Cachey.Lib.LeaderLog
import Cachey.Wal.Record

namespace Cachey.Raft

/-! ## 1. Entries -/

/-- `Configuration`: the voters, and transport addresses for some of them. -/
structure Configuration where
  voters : List String
  addrs : GoMap String String := ∅
deriving DecidableEq

/-- `Entry`: a command, a membership change, or a no-op. -/
structure Entry where
  term : ℕ
  command : Option Bytes := none
  config : Option Configuration := none
deriving DecidableEq

/-- The zero value. -/
instance : Inhabited Entry := ⟨{ term := 0 }⟩

/-! ## 2. The log -/

/-- `Log`: `entries[0]` is the dummy at index `base`. -/
structure Log where
  base : ℕ
  entries : List Entry
deriving DecidableEq

namespace Log

/-- `NewLog`. -/
def new : Log := { base := 0, entries := [{ term := 0 }] }

instance : Inhabited Log := ⟨new⟩

def lastIndex (l : Log) : ℕ := l.base + l.entries.length - 1

def lastTerm (l : Log) : ℕ := (l.entries.getLast?.getD default).term

def baseIndex (l : Log) : ℕ := l.base

def termAt (l : Log) (i : ℕ) : ℕ := (l.entries.getD (i - l.base) default).term

def entryAt (l : Log) (i : ℕ) : Entry := l.entries.getD (i - l.base) default

def append (l : Log) (e : Entry) : Log := { l with entries := l.entries ++ [e] }

def truncate (l : Log) (start : ℕ) : Log := { l with entries := l.entries.take (start - l.base) }

/-- `set`: place `e` at `i`, dropping what was there and after. -/
def set (l : Log) (i : ℕ) (e : Entry) : Log :=
  if i < l.base then l
  else
    let l := if i < l.base + l.entries.length then l.truncate i else l
    l.append e

def slice (l : Log) (start : ℕ) : List Entry := l.entries.drop (start - l.base)

def compact (l : Log) (lastIncluded lastIncludedTerm : ℕ) : Log :=
  if lastIncluded ≥ l.lastIndex then
    { base := lastIncluded, entries := [{ term := lastIncludedTerm }] }
  else
    { base := lastIncluded,
      entries := { term := lastIncludedTerm } :: l.entries.drop (lastIncluded - l.base + 1) }

def reset (_ : Log) (i t : ℕ) : Log := { base := i, entries := [{ term := t }] }

end Log

/-! ## 3. A log that forgets nothing -/

/-- The entries above `start`, and the term at `start`. -/
structure FullLog where
  start : ℕ
  startTerm : ℕ
  entries : List Entry
deriving DecidableEq

namespace FullLog

def new : FullLog := { start := 0, startTerm := 0, entries := [] }

def lastIndex (a : FullLog) : ℕ := a.start + a.entries.length

def entryAt (a : FullLog) (i : ℕ) : Option Entry :=
  if i ≤ a.start then none else a.entries[i - a.start - 1]?

def termAt (a : FullLog) (i : ℕ) : Option ℕ :=
  if i = a.start then some a.startTerm else (a.entryAt i).map Entry.term

/-- The entries from index `i` on. -/
def slice (a : FullLog) (i : ℕ) : List Entry := a.entries.drop (i - a.start - 1)

/-- The entries below index `i` stay. -/
def truncate (a : FullLog) (i : ℕ) : FullLog :=
  { a with entries := a.entries.take (i - a.start - 1) }

def append (a : FullLog) (es : List Entry) : FullLog := { a with entries := a.entries ++ es }

end FullLog

/-! ## 4. What a compacted log shows -/

/-- The log is the full one without the entries up to its base. -/
structure Log.Shows (l : Log) (a : FullLog) : Prop where
  above : a.start ≤ l.base
  below : l.base ≤ a.lastIndex
  split : ∃ d, l.entries = d :: a.entries.drop (l.base - a.start) ∧ a.termAt l.base = some d.term

namespace Log.Shows

variable {l : Log} {a : FullLog} {i : ℕ}

theorem new : Log.new.Shows FullLog.new where
  above := le_rfl
  below := le_rfl
  split := ⟨{ term := 0 }, rfl, rfl⟩

theorem length (h : l.Shows a) : l.base + l.entries.length = a.lastIndex + 1 := by
  obtain ⟨d, he, -⟩ := h.split
  have habove := h.above
  have hbelow := h.below
  unfold FullLog.lastIndex at hbelow ⊢
  rw [he, List.length_cons, List.length_drop]
  omega

theorem lastIndex (h : l.Shows a) : l.lastIndex = a.lastIndex := by
  have := h.length
  unfold Log.lastIndex
  omega

theorem getElem? (h : l.Shows a) (hi : l.base < i) :
    l.entries[i - l.base]? = a.entryAt i := by
  obtain ⟨d, he, -⟩ := h.split
  have habove := h.above
  obtain ⟨k, hk⟩ : ∃ k, i - l.base = k + 1 := ⟨i - l.base - 1, by omega⟩
  rw [he, hk, List.getElem?_cons_succ, List.getElem?_drop, FullLog.entryAt, if_neg (by omega)]
  congr 1
  omega

theorem entryAt (h : l.Shows a) (hi : l.base < i) (hle : i ≤ l.lastIndex) :
    a.entryAt i = some (l.entryAt i) := by
  have hlen := h.length
  have hlast := h.lastIndex
  rw [← h.getElem? hi, Log.entryAt, List.getD_eq_getElem?_getD,
    List.getElem?_eq_getElem (by omega)]
  rfl

theorem termAt_base (h : l.Shows a) : a.termAt l.base = some (l.termAt l.base) := by
  obtain ⟨d, he, hd⟩ := h.split
  rw [hd, Log.termAt, he, Nat.sub_self]
  rfl

theorem termAt (h : l.Shows a) (hi : l.base ≤ i) (hle : i ≤ l.lastIndex) :
    a.termAt i = some (l.termAt i) := by
  rcases Nat.lt_or_eq_of_le hi with hlt | rfl
  · have habove := h.above
    rw [FullLog.termAt, if_neg (by omega), h.entryAt hlt hle]
    rfl
  · exact h.termAt_base

theorem lastTerm (h : l.Shows a) : a.termAt a.lastIndex = some l.lastTerm := by
  have hlen := h.length
  have hlast := h.lastIndex
  have hbelow := h.below
  have hterm : l.lastTerm = l.termAt l.lastIndex := by
    unfold Log.lastTerm Log.termAt
    rw [List.getLast?_eq_getElem?, List.getD_eq_getElem?_getD]
    congr 3
    omega
  rw [hterm, ← hlast]
  exact h.termAt (by omega) le_rfl

theorem slice (h : l.Shows a) (hi : l.base < i) : l.slice i = a.slice i := by
  obtain ⟨d, he, -⟩ := h.split
  have habove := h.above
  obtain ⟨k, hk⟩ : ∃ k, i - l.base = k + 1 := ⟨i - l.base - 1, by omega⟩
  rw [Log.slice, FullLog.slice, he, hk, List.drop_succ_cons, List.drop_drop]
  congr 1
  omega

/-- The term at the base is still known when the entries above it change. -/
theorem termAt_congr {es : List Entry} (ha : a.start ≤ i)
    (hes : es.take (i - a.start) = a.entries.take (i - a.start)) :
    ({ a with entries := es } : FullLog).termAt i = a.termAt i := by
  rcases Nat.lt_or_eq_of_le ha with hlt | rfl
  · have hget := congrArg (fun l : List Entry => l[i - a.start - 1]?) hes
    simp only [List.getElem?_take] at hget
    rw [if_pos (by omega), if_pos (by omega)] at hget
    unfold FullLog.termAt FullLog.entryAt
    rw [hget]
  · simp [FullLog.termAt]

theorem foldl_append : ∀ (es : List Entry) (l : Log),
    es.foldl Log.append l = { l with entries := l.entries ++ es }
  | [], l => by simp
  | e :: es, l => by
    rw [List.foldl_cons, foldl_append es]
    simp [Log.append]

theorem append (h : l.Shows a) (es : List Entry) : (es.foldl Log.append l).Shows (a.append es) := by
  obtain ⟨d, he, hd⟩ := h.split
  have habove := h.above
  have hbelow := h.below
  unfold FullLog.lastIndex at hbelow
  rw [foldl_append]
  refine ⟨habove, ?_, d, ?_, ?_⟩
  · simp only [FullLog.lastIndex, FullLog.append, List.length_append]
    omega
  · change l.entries ++ es = d :: (a.entries ++ es).drop (l.base - a.start)
    rw [he, List.drop_append_of_le_length (by omega), List.cons_append]
  · rw [← hd]
    exact termAt_congr (i := l.base) habove (List.take_append_of_le_length (by omega))

theorem truncate (h : l.Shows a) (hi : l.base < i) : (l.truncate i).Shows (a.truncate i) := by
  obtain ⟨d, he, hd⟩ := h.split
  have habove := h.above
  have hbelow := h.below
  unfold FullLog.lastIndex at hbelow
  obtain ⟨k, hk⟩ : ∃ k, i - l.base = k + 1 := ⟨i - l.base - 1, by omega⟩
  refine ⟨habove, ?_, d, ?_, ?_⟩
  · simp only [FullLog.lastIndex, FullLog.truncate, Log.truncate, List.length_take]
    omega
  · change l.entries.take (i - l.base) = d :: (a.entries.take (i - a.start - 1)).drop (l.base - a.start)
    rw [he, hk, List.take_succ_cons, List.drop_take]
    congr 2
    omega
  · rw [← hd]
    refine termAt_congr (i := l.base) habove ?_
    rw [List.take_take, min_eq_left (by omega)]

/-- `set` cuts the log, if there is something to cut, and appends. -/
theorem set_eq (h : l.Shows a) (e : Entry) (hi : l.base < i) (hle : i ≤ l.lastIndex + 1) :
    l.set i e = (l.truncate i).append e := by
  have hlen := h.length
  have hlast := h.lastIndex
  unfold Log.set
  rw [if_neg (by omega)]
  split
  · rfl
  · have hall : l.truncate i = l := by
      unfold Log.truncate
      rw [List.take_of_length_le (by omega)]
    rw [hall]

theorem compact (h : l.Shows a) (hi : l.base ≤ i) (hle : i ≤ l.lastIndex) :
    (l.compact i (l.termAt i)).Shows a := by
  have habove := h.above
  have hlast := h.lastIndex
  have hterm := h.termAt hi hle
  unfold Log.compact
  split
  next hge =>
    refine ⟨by dsimp only; omega, by dsimp only; omega, { term := l.termAt i }, ?_, hterm⟩
    unfold FullLog.lastIndex at hlast
    rw [List.drop_eq_nil_of_le (by dsimp only; omega)]
  next =>
    obtain ⟨d, he, -⟩ := h.split
    refine ⟨by dsimp only; omega, by dsimp only; omega, { term := l.termAt i }, ?_, hterm⟩
    dsimp only
    rw [he, List.drop_succ_cons, List.drop_drop]
    congr 2
    omega

theorem reset (l : Log) (i t : ℕ) :
    (l.reset i t).Shows { start := i, startTerm := t, entries := [] } where
  above := le_rfl
  below := le_rfl
  split := ⟨{ term := t }, by simp [Log.reset], by simp [FullLog.termAt, Log.reset]⟩

end Log.Shows

/-! ## 5. All entries from index 1 on -/

/-- The term of the last entry, 0 if there is none. -/
abbrev endTerm (l : List Entry) : ℕ := LeaderLog.lastTerm Entry.term l

@[simp] theorem endTerm_concat (l : List Entry) (e : Entry) : endTerm (l ++ [e]) = e.term :=
  LeaderLog.lastTerm_concat Entry.term l e

/-- `l` is the log of the entries `F`, the first of which is at index 1. -/
abbrev Log.Holds (l : Log) (F : List Entry) : Prop :=
  l.Shows { start := 0, startTerm := 0, entries := F }

namespace Log.Holds

variable {l : Log} {F : List Entry} {i t : ℕ}

theorem termAt_take (hi : i ≤ F.length) :
    ({ start := 0, startTerm := 0, entries := F } : FullLog).termAt i = some (endTerm (F.take i)) := by
  rcases Nat.eq_zero_or_pos i with rfl | hpos
  · rfl
  · have hlt : i - 1 < F.length := by omega
    have htake : F.take i = F.take (i - 1) ++ [F[i - 1]] := by
      rw [List.take_append_getElem hlt, Nat.sub_add_cancel hpos]
    rw [FullLog.termAt, if_neg hpos.ne', FullLog.entryAt, if_neg (by simpa using hpos.ne'), htake,
      endTerm_concat]
    simp [List.getElem?_eq_getElem hlt]

theorem reset (l : Log) (hi : i = F.length) (ht : t = endTerm F) : (l.reset i t).Holds F := by
  subst hi ht
  refine ⟨Nat.zero_le _, by simp [FullLog.lastIndex, Log.reset], { term := endTerm F }, ?_, ?_⟩
  · simp [Log.reset]
  · exact (termAt_take le_rfl).trans (by rw [List.take_length])

variable (h : l.Holds F)

include h

theorem lastIndex : l.lastIndex = F.length := by
  simpa [FullLog.lastIndex] using Shows.lastIndex h

theorem entryAt (hlo : l.base < i) (hhi : i ≤ F.length) : F[i - 1]? = some (l.entryAt i) := by
  have hentry := Shows.entryAt h hlo (h.lastIndex.symm ▸ hhi)
  rwa [FullLog.entryAt, if_neg (by dsimp only; omega)] at hentry

theorem termAt (hlo : l.base ≤ i) (hhi : i ≤ F.length) : l.termAt i = endTerm (F.take i) :=
  Option.some.inj ((Shows.termAt h hlo (h.lastIndex.symm ▸ hhi)).symm.trans (termAt_take hhi))

theorem lastTerm_eq : l.lastTerm = endTerm F := by
  have hlast := Shows.lastTerm h
  rw [← Shows.lastIndex h, h.lastIndex, termAt_take le_rfl, List.take_length] at hlast
  exact (Option.some.inj hlast).symm

theorem append (e : Entry) : (l.append e).Holds (F ++ [e]) := Shows.append h [e]

theorem truncate (hlo : l.base < i) : (l.truncate i).Holds (F.take (i - 1)) := Shows.truncate h hlo

theorem slice (hlo : l.base < i) : l.slice i = F.drop (i - 1) := Shows.slice h hlo

theorem compact (hlo : l.base ≤ i) (hhi : i ≤ F.length) (ht : t = endTerm (F.take i)) :
    (l.compact i t).Holds F := by
  rw [ht, ← h.termAt hlo hhi]
  exact Shows.compact h hlo (h.lastIndex.symm ▸ hhi)

end Log.Holds

end Cachey.Raft
