/-
# The control messages of the writer

`wal.Writer` takes its mutations and the manager's control messages from one channel.  A rotation
is three messages: `StartSealing` turns the appends to the temporary log, `FinishRotation` stops
them -- mutations are HELD from then on -- and `RotationComplete` opens the active log again and
writes what was held.  A message that is repeated under its id is answered from a table.

What the store behind the log relies on is the ORDER: a mutation that was received earlier is
written earlier.  `Orderly` is the invariant that gives it: nothing is held while the writer can
still append, so a held mutation is never overtaken.
-/
import Cachey.Lib.GoMap
import Cachey.Wal.Writer

namespace Cachey.Wal

/-! ## 1. The writer loop -/

abbrev ControlID := ℕ

/-- `controlResult`: the answer to a control message; its error is always nil. -/
structure ControlResult where
  boundary : ℕ
  lastTmp : ℕ
deriving DecidableEq

/-- `Writer` with the fields of the control messages. -/
structure WriterLoop where
  running : Running
  sealBoundary : ℕ
  controlRes : GoMap ControlID ControlResult
deriving DecidableEq

namespace WriterLoop

/-- The writer that `Open` starts. -/
def start (tmpLimit holdLimit last : ℕ) (d : Dir) : WriterLoop where
  running := Running.start tmpLimit holdLimit last d
  sealBoundary := 0
  controlRes := ∅

def handleMutation (C : Codec) (outcome : AppendOutcome) (rec : Record) (w : WriterLoop) :
    WriterLoop × Option Reply :=
  let (r, reply) := w.running.handleMutation C outcome rec
  ({ w with running := r }, reply)

/-- `handleStartSealing`; `opens` tells whether the temporary log could be opened.  The result is
the boundary acknowledged. -/
def handleStartSealing (opens : Bool) (id : ControlID) (w : WriterLoop) : WriterLoop × Option ℕ :=
  match w.controlRes.lookup id with
  | some res => (w, some res.boundary)
  | none =>
    let wr := w.running.writer
    if wr.state = .sealing ∨ wr.state = .rotating then
      ({ w with controlRes := w.controlRes.insert id ⟨w.sealBoundary, 0⟩ }, some w.sealBoundary)
    else if ¬ opens then (w, none)
    else
      let dir := w.running.dir
      ({ running :=
           { writer := { wr with active := false, tmp := true, tmpCount := 0, state := .sealing }
             dir := { dir with tmp := some (dir.tmp.getD []) } }
         sealBoundary := wr.lastIndex
         controlRes := w.controlRes.insert id ⟨wr.lastIndex, 0⟩ }, some wr.lastIndex)

/-- `handleFinishRotation`: in whatever state the writer is. -/
def handleFinishRotation (id : ControlID) (w : WriterLoop) : WriterLoop × Option ℕ :=
  match w.controlRes.lookup id with
  | some res => (w, some res.lastTmp)
  | none =>
    let wr := w.running.writer
    ({ w with
       running := { w.running with writer := { wr with tmp := false, state := .rotating } }
       controlRes := w.controlRes.insert id ⟨0, wr.lastIndex⟩ }, some wr.lastIndex)

/-- The held mutations go to the active log, oldest first. -/
def drain (C : Codec) : List (Record × AppendOutcome) → Running → Running × List Reply
  | [], r => (r, [])
  | (rec, outcome) :: held, r =>
    let (r, reply) := r.append C outcome rec (some .active)
    let (r, replies) := drain C held r
    (r, reply :: replies)

/-- `handleRotationComplete`: the answers to the held mutations, and whether the message is
acknowledged.  `outcomes` are those of the appends. -/
def handleRotationComplete (C : Codec) (opens : Bool) (outcomes : Record → AppendOutcome)
    (id : ControlID) (w : WriterLoop) : WriterLoop × List Reply × Bool :=
  match w.controlRes.lookup id with
  | some _ => (w, [], true)
  | none =>
    if ¬ opens then (w, [], false)
    else
      let wr := w.running.writer
      let dir := w.running.dir
      let (r, replies) := drain C (wr.hold.map fun rec => (rec, outcomes rec))
        { writer := { wr with active := true, metaCount := 0, state := .idle, hold := [] }
          dir := { dir with active := some (dir.active.getD []) } }
      ({ w with running := r, controlRes := w.controlRes.insert id ⟨0, 0⟩ }, replies, true)

/-! ## 2. Nothing is overtaken -/

/-- Nothing is held while the writer appends, and the file it appends to is open.  A held mutation
waits for `RotationComplete`, and that is also the only message that lets the writer append again;
so it cannot be overtaken by one that came later. -/
structure Orderly (w : WriterLoop) : Prop where
  idle : w.running.writer.state = .idle → w.running.writer.hold = [] ∧ w.running.writer.active = true
  sealing : w.running.writer.state = .sealing → w.running.writer.tmp = true ∧
    (w.running.writer.tmpCount < w.running.writer.tmpLimit → w.running.writer.hold = [])

theorem Orderly.start (tmpLimit holdLimit last : ℕ) (d : Dir) :
    (start tmpLimit holdLimit last d).Orderly where
  idle := fun _ => ⟨rfl, rfl⟩
  sealing := fun h => absurd h (by simp [WriterLoop.start, Running.start])

variable {w : WriterLoop}

theorem Orderly.handleStartSealing (h : w.Orderly) (opens : Bool) (id : ControlID) :
    (w.handleStartSealing opens id).1.Orderly := by
  unfold WriterLoop.handleStartSealing
  split
  · exact h
  dsimp only
  split
  · exact ⟨h.idle, h.sealing⟩
  next hstate =>
    split
    · exact h
    · have hidle : w.running.writer.state = .idle := by
        cases hs : w.running.writer.state with
        | idle => rfl
        | sealing => exact absurd (Or.inl hs) hstate
        | rotating => exact absurd (Or.inr hs) hstate
      exact ⟨fun hs => absurd hs (by simp), fun _ => ⟨rfl, fun _ => (h.idle hidle).1⟩⟩

theorem Orderly.handleFinishRotation (h : w.Orderly) (id : ControlID) :
    (w.handleFinishRotation id).1.Orderly := by
  unfold WriterLoop.handleFinishRotation
  split
  · exact h
  · exact ⟨fun hs => absurd hs (by simp), fun hs => absurd hs (by simp)⟩

/-- Appending the held mutations to the active log leaves the state of the writer alone. -/
theorem drain_spec (C : Codec) : ∀ (held : List (Record × AppendOutcome)) (r : Running),
    (drain C held r).1.writer.state = r.writer.state ∧
      (drain C held r).1.writer.hold = r.writer.hold ∧
      (drain C held r).1.writer.active = r.writer.active
  | [], _ => ⟨rfl, rfl, rfl⟩
  | (rec, outcome) :: held, r => by
    obtain ⟨h₁, h₂, h₃⟩ := drain_spec C held (r.append C outcome rec (some .active)).1
    have hone : ∀ r' : Running, r' = (r.append C outcome rec (some .active)).1 →
        r'.writer.state = r.writer.state ∧ r'.writer.hold = r.writer.hold ∧
          r'.writer.active = r.writer.active := by
      rintro r' rfl
      cases outcome <;> exact ⟨rfl, rfl, rfl⟩
    obtain ⟨g₁, g₂, g₃⟩ := hone _ rfl
    exact ⟨h₁.trans g₁, h₂.trans g₂, h₃.trans g₃⟩

theorem Orderly.handleRotationComplete (h : w.Orderly) (C : Codec) (opens : Bool)
    (outcomes : Record → AppendOutcome) (id : ControlID) :
    (w.handleRotationComplete C opens outcomes id).1.Orderly := by
  unfold WriterLoop.handleRotationComplete
  split
  · exact h
  split
  · exact h
  · obtain ⟨h₁, h₂, h₃⟩ := drain_spec C
      (w.running.writer.hold.map fun rec => (rec, outcomes rec))
      { writer := { w.running.writer with active := true, metaCount := 0, state := .idle, hold := [] }
        dir := { w.running.dir with active := some (w.running.dir.active.getD []) } }
    exact ⟨fun _ => ⟨h₂, h₃⟩, fun hs => absurd (h₁.symm.trans hs) (by simp)⟩

theorem Orderly.handleMutation (h : w.Orderly) (C : Codec) (outcome : AppendOutcome)
    (rec : Record) : (w.handleMutation C outcome rec).1.Orderly := by
  unfold WriterLoop.handleMutation Running.handleMutation
  cases hs : w.running.writer.state with
  | rotating =>
    dsimp only [Running.holdMutation]
    split
    · exact h
    · exact ⟨fun hi => absurd (hi.symm.trans hs) (by simp),
        fun hi => absurd (hi.symm.trans hs) (by simp)⟩
  | sealing =>
    dsimp only
    split
    next hfull =>
      dsimp only [Running.holdMutation]
      split
      · exact h
      · exact ⟨fun hi => absurd (hi.symm.trans hs) (by simp),
          fun _ => ⟨(h.sealing hs).1, fun hlt => absurd hlt (by dsimp only; omega)⟩⟩
    next hroom =>
      have hempty : w.running.writer.hold = [] := (h.sealing hs).2 (by omega)
      rw [(h.sealing hs).1]
      cases outcome <;>
        exact ⟨fun hi => absurd (hi.symm.trans hs) (by simp),
          fun _ => ⟨(h.sealing hs).1, fun _ => hempty⟩⟩
  | idle =>
    rw [(h.idle hs).2]
    cases outcome <;>
      exact ⟨fun _ => h.idle hs, fun hi => absurd (hs.symm.trans hi) (by simp)⟩

/-- The next mutation is appended to a file, and neither held nor refused. -/
def appends (w : WriterLoop) : Bool :=
  match w.running.writer.state with
  | .idle => true
  | .sealing => w.running.writer.tmpCount < w.running.writer.tmpLimit
  | .rotating => false

/-- The hold queue takes no more. -/
def full (w : WriterLoop) : Bool := w.running.writer.holdLimit ≤ w.running.writer.hold.length

/-- The message ends a rotation: it is new, and the active log could be opened. -/
def resumes (opens : Bool) (id : ControlID) (w : WriterLoop) : Bool :=
  opens && (w.controlRes.lookup id).isNone

/-- What becomes of a mutation when every write succeeds: it is written behind everything received
before it, refused, or held behind everything held before it. -/
theorem handleMutation_cases (h : w.Orderly) (C : Codec) (rec : Record) :
    let held := fun w : WriterLoop => w.running.writer.hold
    let next := w.handleMutation C .succeeds rec
    (w.appends = true ∧ next.2 = some .ok ∧ held w = [] ∧ held next.1 = []) ∨
      (w.appends = false ∧ w.full = true ∧ next.2 = some .busy ∧ held next.1 = held w) ∨
      (w.appends = false ∧ w.full = false ∧ next.2 = none ∧ held next.1 = held w ++ [rec]) := by
  have hhold : ∀ w' : WriterLoop, w' = { w with running := (w.running.holdMutation rec).1 } →
      (w.full = true ∧ (w.running.holdMutation rec).2 = some .busy ∧
        w'.running.writer.hold = w.running.writer.hold) ∨
      (w.full = false ∧ (w.running.holdMutation rec).2 = none ∧
        w'.running.writer.hold = w.running.writer.hold ++ [rec]) := by
    rintro w' rfl
    unfold full Running.holdMutation
    split
    next hfull => exact Or.inl ⟨by simpa using hfull, rfl, rfl⟩
    next hroom => exact Or.inr ⟨by simpa using hroom, rfl, rfl⟩
  unfold WriterLoop.handleMutation Running.handleMutation
  cases hs : w.running.writer.state with
  | rotating =>
    have happ : w.appends = false := by simp [appends, hs]
    exact Or.inr ((hhold _ rfl).imp (⟨happ, ·⟩) (⟨happ, ·⟩))
  | sealing =>
    dsimp only
    split
    next hlimit =>
      have happ : w.appends = false := by simpa [appends, hs] using hlimit
      exact Or.inr ((hhold _ rfl).imp (⟨happ, ·⟩) (⟨happ, ·⟩))
    next hroom =>
      have hempty : w.running.writer.hold = [] := (h.sealing hs).2 (by omega)
      rw [(h.sealing hs).1]
      exact Or.inl ⟨by simpa [appends, hs] using hroom, rfl, hempty, hempty⟩
  | idle =>
    rw [(h.idle hs).2]
    exact Or.inl ⟨by simp [appends, hs], rfl, (h.idle hs).1, (h.idle hs).1⟩

theorem drain_succeeds (C : Codec) : ∀ (held : List Record) (r : Running),
    (drain C (held.map fun rec => (rec, .succeeds)) r).2 = held.map fun _ => .ok
  | [], _ => rfl
  | rec :: held, r => by
    change Reply.ok :: (drain C (held.map fun rec => (rec, .succeeds)) _).2 = _
    rw [drain_succeeds C held]
    rfl

/-- The end of a rotation when every write succeeds: a repeated or unsuccessful message changes
nothing, otherwise everything held is written. -/
theorem handleRotationComplete_cases (w : WriterLoop) (C : Codec) (opens : Bool) (id : ControlID) :
    let held := fun w : WriterLoop => w.running.writer.hold
    let next := w.handleRotationComplete C opens (fun _ => .succeeds) id
    (w.resumes opens id = false ∧ next.2.1 = [] ∧ next.1 = w) ∨
      (w.resumes opens id = true ∧ next.2.1 = (held w).map (fun _ => .ok) ∧ held next.1 = []) := by
  unfold WriterLoop.handleRotationComplete
  split
  next hknown => exact Or.inl ⟨by simp [resumes, hknown], rfl, rfl⟩
  next hnew =>
  split
  next hclosed => exact Or.inl ⟨by simpa [resumes] using fun h => absurd h hclosed, rfl, rfl⟩
  next hopen =>
    refine Or.inr ⟨?_, drain_succeeds C _ _, (drain_spec C _ _).2.1⟩
    rw [resumes, hnew, not_not.mp hopen]
    rfl

theorem handleStartSealing_hold (w : WriterLoop) (opens : Bool) (id : ControlID) :
    (w.handleStartSealing opens id).1.running.writer.hold = w.running.writer.hold := by
  unfold WriterLoop.handleStartSealing
  split
  · rfl
  dsimp only
  split
  · rfl
  split <;> rfl

theorem handleFinishRotation_hold (w : WriterLoop) (id : ControlID) :
    (w.handleFinishRotation id).1.running.writer.hold = w.running.writer.hold := by
  unfold WriterLoop.handleFinishRotation
  split <;> rfl

end WriterLoop

end Cachey.Wal
