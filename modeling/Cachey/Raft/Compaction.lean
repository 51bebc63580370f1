/-
# Compaction does not show

`Log` keeps the entries above its base only, behind a dummy that carries the base's term.  Here it
is compared with a log that forgets nothing (`FullLog`): the same appends, truncations and
replacements are made on it, and `compact` leaves it alone.  Only `reset` makes it begin anew, at an
entry of which nothing but the term is known.

* `Shows.step`: every operation, called within the log, keeps the relation `Shows` between the two.
* `compaction_invisible`: along any sequence of operations, whatever can be read at or above the
  base is what the full log says.
-/
import Cachey.Raft.Log

namespace Cachey.Raft

/-! ## 1. Operations -/

/-- An operation of the log. -/
inductive LogCall where
  | append (es : List Entry)
  | truncate (i : ℕ)
  | set (i : ℕ) (e : Entry)
  | compact (i t : ℕ)
  | reset (i t : ℕ)

namespace LogCall

def run (l : Log) : LogCall → Log
  | append es => es.foldl Log.append l
  | truncate i => l.truncate i
  | set i e => l.set i e
  | compact i t => l.compact i t
  | reset i t => l.reset i t

/-- The call on the full log. -/
def onFull (a : FullLog) : LogCall → FullLog
  | append es => a.append es
  | truncate i => a.truncate i
  | set i e => (a.truncate i).append [e]
  | compact _ _ => a
  | reset i t => { start := i, startTerm := t, entries := [] }

/-- The call is made within the log.  A reset may be made anywhere. -/
def Within (l : Log) : LogCall → Prop
  | append _ => True
  | truncate i => l.base < i ∧ i ≤ l.lastIndex
  | set i _ => l.base < i ∧ i ≤ l.lastIndex + 1
  | compact i t => l.base ≤ i ∧ i ≤ l.lastIndex ∧ t = l.termAt i
  | reset _ _ => True

/-- So is every call of a sequence. -/
def AllWithin : List LogCall → Log → Prop
  | [], _ => True
  | c :: cs, l => c.Within l ∧ AllWithin cs (c.run l)

end LogCall

/-! ## 2. One operation -/

namespace Log.Shows

variable {l : Log} {a : FullLog}

/-- **Every operation made within the log keeps the relation.** -/
theorem step (h : l.Shows a) {c : LogCall} (hc : c.Within l) : (c.run l).Shows (c.onFull a) := by
  cases c with
  | append es => exact h.append es
  | truncate i => exact h.truncate hc.1
  | set i e =>
    rw [LogCall.run, h.set_eq e hc.1 hc.2]
    exact (h.truncate hc.1).append [e]
  | compact i t =>
    obtain ⟨hi, hle, rfl⟩ := hc
    exact h.compact hi hle
  | reset i t => exact reset l i t

theorem run : ∀ {cs : List LogCall} {l : Log} {a : FullLog}, l.Shows a → LogCall.AllWithin cs l →
    (cs.foldl LogCall.run l).Shows (cs.foldl LogCall.onFull a)
  | [], _, _, h, _ => h
  | _ :: _, _, _, h, hcs => (h.step hcs.1).run hcs.2

end Log.Shows

/-! ## 3. Any sequence of operations -/

/-- **Compaction is invisible above the base.**  The last index and term, the term at the base, and
every term, entry and slice above it are those of a log that was never compacted.  `none` stands for
an index the full log has nothing at; there the code would panic. -/
theorem compaction_invisible (cs : List LogCall) (hcs : LogCall.AllWithin cs Log.new) :
    let l := cs.foldl LogCall.run Log.new
    let full := cs.foldl LogCall.onFull FullLog.new
    l.lastIndex = full.lastIndex ∧ full.termAt full.lastIndex = some l.lastTerm ∧
      full.termAt l.base = some (l.termAt l.base) ∧
      (∀ i, l.base < i → i ≤ l.lastIndex →
        full.entryAt i = some (l.entryAt i) ∧ full.termAt i = some (l.termAt i)) ∧
      (∀ i, l.lastIndex < i → full.entryAt i = none) ∧
      ∀ i, l.base < i → l.slice i = full.slice i := by
  have h := Log.Shows.new.run hcs
  refine ⟨h.lastIndex, h.lastTerm, h.termAt_base,
    fun i hi hle => ⟨h.entryAt hi hle, h.termAt hi.le hle⟩, fun i hi => ?_, fun i hi => h.slice hi⟩
  have hlen := h.length
  have hlast := h.lastIndex
  have hbelow := h.below
  rw [← h.getElem? (by omega), List.getElem?_eq_none (by omega)]

/-- Two entries, a reset, three entries above it, compacted at the first of them; then the last one
is replaced. -/
def sevenCalls : List LogCall :=
  [.append [⟨1, none, none⟩, ⟨1, none, none⟩], .compact 1 1, .set 3 ⟨2, none, none⟩, .reset 9 5,
    .append [⟨6, none, none⟩, ⟨6, none, none⟩, ⟨6, none, none⟩], .compact 10 6,
    .set 12 ⟨7, none, none⟩]

/-- The log ends compacted, with two entries above its base. -/
theorem compaction_invisible_seven :
    let l := sevenCalls.foldl LogCall.run Log.new
    (l.base = 10 ∧ l.lastIndex = 12 ∧ l.entryAt 12 = ⟨7, none, none⟩) ∧
      ∀ i, l.base < i → l.slice i = (sevenCalls.foldl LogCall.onFull FullLog.new).slice i := by
  have hcs : LogCall.AllWithin sevenCalls Log.new := by
    simp only [sevenCalls, LogCall.AllWithin, LogCall.Within]
    decide
  exact ⟨by decide, (compaction_invisible sevenCalls hcs).2.2.2.2.2⟩

end Cachey.Raft
