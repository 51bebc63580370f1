/-
# Recovering the write-ahead log

`wal.Recover` on a directory: the snapshot first, then the active log, then a temporary log left
by an interrupted rotation, which is merged into the active one.

* Files are byte strings; a file that is not there is `none`.  JSON is a parameter (`Codec`), with
  the laws of section 2.
* The hooks of the store are a parameter (`Hooks`); a hook may refuse what it is given.
* Operations of the file system succeed here; what an interrupted write leaves behind is in the
  bytes themselves.

The result of section 3 is that recovery leaves a directory of WHOLE lines whose replay ends where
the recovery did, so that whatever is appended later is replayed from there
(`recover_append`).
-/
import Cachey.Lib.Lines
import Cachey.Wal.Record

namespace Cachey.Wal

/-! ## 1. Recovery -/

/-- `snapshotData`: the boundary and the keys. -/
structure SnapshotData where
  lastLogIndex : ℕ
  data : List SnapshotEntry
deriving DecidableEq

/-- `json.Marshal` and `json.Unmarshal` of records, and `json.Unmarshal` of snapshots. -/
structure Codec where
  encode : Record → Bytes
  decode : Bytes → Option Record
  decodeSnapshot : Bytes → Option SnapshotData

/-- `Hooks` of the store; `none` is an error. -/
structure Hooks (σ : Type) where
  applySnapshot : σ → List SnapshotEntry → Option σ
  applyRecord : σ → Record → Option σ

/-- The two log files. -/
inductive File where
  | active
  | tmp
deriving DecidableEq, Repr

/-- `'\n'`. -/
def newline : UInt8 := 10

/-- The files of a WAL directory: `snapshot`, `snapshot.tmp`, `wal.ndjson`, `wal.tmp.ndjson` and
`wal.ndjson.rebuild.tmp`. -/
structure Dir where
  snapshot : Option Bytes := none
  snapshotTmp : Option Bytes := none
  active : Option Bytes := none
  tmp : Option Bytes := none
  rebuildTmp : Option Bytes := none
deriving DecidableEq

/-- Why a recovery fails. -/
inductive RecoverError where
  | corruptSnapshot
  | emptyLine (line : ℕ) (path : File)
  | corrupt (line : ℕ) (path : File)
  | unknownOp (op : Op) (path : File)
  | indexGap (path : File) (got want : ℕ)
  | refused
deriving DecidableEq

/-- Where a replay stands: the last index and the store. -/
structure Replay (σ : Type) where
  last : ℕ
  store : σ
deriving DecidableEq

section Model

variable {σ : Type}

def validateRec (rec : Record) (last : ℕ) (path : File) : Except RecoverError Unit :=
  if ¬ rec.op.known then .error (.unknownOp rec.op path)
  else if rec.logIndex > last + 1 then .error (.indexGap path rec.logIndex (last + 1))
  else .ok ()

/-- A record that passed the check: the next one is applied, one at or below `last` is skipped. -/
def deliver (H : Hooks σ) (rec : Record) (s : Replay σ) : Except RecoverError (Replay σ) :=
  if rec.logIndex = s.last + 1 then
    match H.applyRecord s.store rec with
    | none => .error .refused
    | some store => .ok { last := rec.logIndex, store := store }
  else .ok s

def replayRecord (H : Hooks σ) (path : File) (rec : Record) (s : Replay σ) :
    Except RecoverError (Replay σ) := do
  validateRec rec s.last path
  deliver H rec s

/-- The loop of `replayWALFile` over the complete lines. -/
def replayLines (C : Codec) (H : Hooks σ) (path : File) :
    (i : ℕ) → List Bytes → Replay σ → Except RecoverError (Replay σ)
  | _, [], s => .ok s
  | i, line :: lines, s =>
    if line = [] then .error (.emptyLine i path)
    else match C.decode line with
      | none => .error (.corrupt i path)
      | some rec => (replayRecord H path rec s).bind (replayLines C H path (i + 1) lines)

/-- `replayWALFile`: where the replay stands, and the file as it is left. -/
def replayWALFile (C : Codec) (H : Hooks σ) (path : File) (data : Bytes) (s : Replay σ) :
    Except RecoverError (Replay σ × Bytes) := do
  let (lines, tail) := Lines.split newline data
  let s ← replayLines C H path 0 lines s
  if tail = [] then return (s, data)
  match C.decode tail with
  -- a partial write is cut off
  | none => return (s, data.take (data.length - tail.length))
  -- only the newline is missing: it is added
  | some rec =>
    let s ← replayRecord H path rec s
    return (s, data ++ [newline])

/-- The snapshot, if there is one. -/
def loadSnapshot (C : Codec) (H : Hooks σ) (snapshot : Option Bytes) (store : σ) :
    Except RecoverError (Replay σ) :=
  match snapshot with
  | none => .ok { last := 0, store := store }
  | some b =>
    match C.decodeSnapshot b with
    | none => .error .corruptSnapshot
    | some snap =>
      match H.applySnapshot store snap.data with
      | none => .error .refused
      | some store => .ok { last := snap.lastLogIndex, store := store }

/-- One of the two logs, if it is there. -/
def replayFile (C : Codec) (H : Hooks σ) (path : File) (file : Option Bytes) (s : Replay σ) :
    Except RecoverError (Replay σ × Option Bytes) :=
  match file with
  | none => .ok (s, none)
  | some data => (replayWALFile C H path data s).map fun x => (x.1, some x.2)

/-- `rebuildActive`: the two logs in one file. -/
def rebuildActive (d : Dir) : Dir :=
  { d with active := some (d.active.getD [] ++ d.tmp.getD []), tmp := none, rebuildTmp := none }

def recover (C : Codec) (H : Hooks σ) (d : Dir) (store : σ) :
    Except RecoverError (Replay σ × Dir) := do
  let s ← loadSnapshot C H d.snapshot store
  let (s, active) ← replayFile C H .active d.active s
  let (s, tmp) ← replayFile C H .tmp d.tmp s
  let d := { d with snapshotTmp := none, active := active, tmp := tmp }
  return (s, if tmp.isSome then rebuildActive d else d)

end Model

/-! ## 2. Laws of the encoding -/

/-- A beginning of an encoded record, not empty. -/
def Codec.Piece (C : Codec) (p : Bytes) : Prop := p ≠ [] ∧ ∃ r q, p ++ q = C.encode r

/-- The JSON encoding of a record reads back, is one line, and cannot be read before its end.  These
are the facts about `encoding/json` that a torn line is recognised by: an object is not complete
before its closing brace. -/
structure Codec.Framed (C : Codec) : Prop where
  decode_encode : ∀ r, C.decode (C.encode r) = some r
  one_line : ∀ r, newline ∉ C.encode r
  not_empty : ∀ r, C.encode r ≠ []
  decode_initial : ∀ {r p q}, p ++ q = C.encode r → q ≠ [] → C.decode p = none

/-- Moreover pieces of several records joined together are no record: what failed writes leave in
one line of the log is never taken for a record. -/
structure Codec.Lawful (C : Codec) : Prop extends C.Framed where
  decode_joined : ∀ ps : List Bytes, 2 ≤ ps.length → (∀ p ∈ ps, C.Piece p) →
    C.decode ps.flatten = none

/-! ## 3. What a recovery leaves behind

The next process appends to the file that a recovery leaves, and the recovery after that reads both.
So what matters about a replay is that its file, as it is left, replays to the same place. -/

section Properties

variable {σ α β ε : Type} {C : Codec} {H : Hooks σ} {path : File} {s s' s₁ : Replay σ}
  {data data' : Bytes} {d : Dir} {store : σ}

theorem bind_eq_ok {x : Except ε α} {f : α → Except ε β} {b : β} :
    x.bind f = .ok b ↔ ∃ a, x = .ok a ∧ f a = .ok b := by
  cases x with
  | error e => simp [Except.bind]
  | ok a => simp [Except.bind]

theorem map_eq_ok {x : Except ε α} {f : α → β} {b : β} :
    x.map f = .ok b ↔ ∃ a, x = .ok a ∧ f a = b := by
  cases x with
  | error e => simp [Except.map]
  | ok a => simp [Except.map]

/-- A record is taken exactly when its operation is known, it leaves no gap and, if it is the next
one, the store takes it. -/
theorem replayRecord_eq_ok {rec : Record} : replayRecord H path rec s = .ok s' ↔
    rec.op.known = true ∧ rec.logIndex ≤ s.last + 1 ∧ deliver H rec s = .ok s' := by
  have hdef : replayRecord H path rec s =
      (validateRec rec s.last path).bind fun _ => deliver H rec s := rfl
  rw [hdef, bind_eq_ok]
  unfold validateRec
  by_cases hop : rec.op.known = true
  · by_cases hgap : rec.logIndex > s.last + 1
    · have hle : ¬ rec.logIndex ≤ s.last + 1 := by omega
      simp [hop, hgap, hle]
    · have hle : rec.logIndex ≤ s.last + 1 := by omega
      simp [hop, hgap, hle]
  · simp [hop]

theorem replayLines_any (path' : File) : ∀ (lines : List Bytes) (i i' : ℕ) {s : Replay σ},
    replayLines C H path i lines s = .ok s' → replayLines C H path' i' lines s = .ok s'
  | [], _, _, _, h => h
  | line :: lines, i, i', s, h => by
    unfold replayLines at h ⊢
    split at h
    · cases h
    next hne =>
    rw [if_neg hne]
    cases hdec : C.decode line with
    | none =>
      rw [hdec] at h
      cases h
    | some rec =>
      rw [hdec] at h
      obtain ⟨s₁, h₁, h₂⟩ := bind_eq_ok.mp h
      refine bind_eq_ok.mpr ⟨s₁, ?_, replayLines_any path' lines (i + 1) (i' + 1) h₂⟩
      exact replayRecord_eq_ok.mpr (replayRecord_eq_ok.mp h₁)

theorem replayLines_append : ∀ (lines lines' : List Bytes) (i : ℕ) (s : Replay σ),
    replayLines C H path i (lines ++ lines') s =
      (replayLines C H path i lines s).bind (replayLines C H path (i + lines.length) lines')
  | [], _, _, _ => rfl
  | line :: lines, lines', i, s => by
    rw [List.cons_append, replayLines, replayLines]
    split
    · rfl
    split
    · rfl
    next rec _ =>
      cases replayRecord H path rec s with
      | error e => rfl
      | ok s₁ =>
        have ih := replayLines_append lines lines' (i + 1) s₁
        rw [show i + 1 + lines.length = i + (line :: lines).length by simp; omega] at ih
        exact ih

/-- The unfinished line of a file. -/
def replayTail (C : Codec) (H : Hooks σ) (path : File) (data tail : Bytes) (s : Replay σ) :
    Except RecoverError (Replay σ × Bytes) :=
  if tail = [] then .ok (s, data)
  else match C.decode tail with
    | none => .ok (s, data.take (data.length - tail.length))
    | some rec => (replayRecord H path rec s).map fun s => (s, data ++ [newline])

theorem replayWALFile_eq (data : Bytes) : replayWALFile C H path data s =
    (replayLines C H path 0 (Lines.split newline data).1 s).bind
      (replayTail C H path data (Lines.split newline data).2) := by
  unfold replayWALFile replayTail
  rcases Lines.split newline data with ⟨lines, tail⟩
  dsimp only
  cases replayLines C H path 0 lines s with
  | error e => rfl
  | ok s₁ =>
    split
    · rfl
    · cases C.decode tail with
      | none => rfl
      | some rec => cases hr : replayRecord H path rec s₁ <;> simp [hr] <;> rfl

/-- **A replayed file** consists of whole lines, and replaying them ends at the same place. -/
theorem replayWALFile_ok (h : replayWALFile C H path data s = .ok (s', data')) :
    ∃ lines, data' = Lines.join newline lines ∧ (∀ l ∈ lines, newline ∉ l) ∧
      ∀ path' i, replayLines C H path' i lines s = .ok s' := by
  rw [replayWALFile_eq] at h
  obtain ⟨s₁, hlines, htail⟩ := bind_eq_ok.mp h
  have hjoin := Lines.join_split newline data
  have hmarks := Lines.unmarked newline data
  generalize (Lines.split newline data).1 = lines at hlines hjoin hmarks
  generalize (Lines.split newline data).2 = tail at htail hjoin hmarks
  unfold replayTail at htail
  split at htail
  next hnil =>
    cases htail
    refine ⟨lines, ?_, hmarks.1, fun path' i => replayLines_any path' lines 0 i hlines⟩
    rw [← hjoin, hnil, List.append_nil]
  next hne =>
  cases hdec : C.decode tail with
  | none =>
    rw [hdec] at htail
    cases htail
    refine ⟨lines, ?_, hmarks.1, fun path' i => replayLines_any path' lines 0 i hlines⟩
    rw [← hjoin, List.length_append, Nat.add_sub_cancel, List.take_left]
  | some rec =>
    rw [hdec] at htail
    obtain ⟨s₂, hrec, hsame⟩ := map_eq_ok.mp htail
    cases hsame
    have hall : replayLines C H path 0 (lines ++ [tail]) s = .ok s' := by
      rw [replayLines_append]
      refine bind_eq_ok.mpr ⟨s₁, hlines, ?_⟩
      rw [replayLines, if_neg hne, hdec]
      exact bind_eq_ok.mpr ⟨s', hrec, rfl⟩
    refine ⟨lines ++ [tail], ?_, ?_, fun path' i => replayLines_any path' _ 0 i hall⟩
    · rw [← hjoin, Lines.join_append, List.append_assoc, Lines.join_cons, Lines.join_nil]
    · intro l hl
      rcases List.mem_append.mp hl with hl | hl
      · exact hmarks.1 l hl
      · rw [List.mem_singleton.mp hl]
        exact hmarks.2

theorem replayTail_append (start : Bytes) {tail : Bytes} (hle : tail.length ≤ data.length)
    (s : Replay σ) : replayTail C H path (start ++ data) tail s =
      (replayTail C H path data tail s).map fun x => (x.1, start ++ x.2) := by
  unfold replayTail
  split
  · rfl
  cases C.decode tail with
  | none =>
    have hcut : (start ++ data).take ((start ++ data).length - tail.length) =
        start ++ data.take (data.length - tail.length) := by
      rw [List.length_append, show start.length + data.length - tail.length =
        start.length + (data.length - tail.length) by omega, List.take_length_add_append]
    exact congrArg (fun d => Except.ok (s, d)) hcut
  | some rec =>
    dsimp only
    cases replayRecord H path rec s with
    | error e => rfl
    | ok s₁ => exact congrArg (fun d => Except.ok (s₁, d)) (List.append_assoc _ _ _)

theorem replayWALFile_join {lines : List Bytes} (hmarks : ∀ l ∈ lines, newline ∉ l)
    (hlines : ∀ i, replayLines C H path i lines s = .ok s₁) {more : Bytes} :
    replayWALFile C H path (Lines.join newline lines ++ more) s = .ok (s', data') ↔
      ∃ more', replayWALFile C H path more s₁ = .ok (s', more') ∧
        Lines.join newline lines ++ more' = data' := by
  have hlen : (Lines.split newline more).2.length ≤ more.length := by
    have := congrArg List.length (Lines.join_split newline more)
    rw [List.length_append] at this
    omega
  rw [replayWALFile_eq, Lines.split_join hmarks, replayLines_append, hlines 0, bind_eq_ok]
  constructor
  · rintro ⟨s₂, h₁, h₂⟩
    rw [replayTail_append _ hlen] at h₂
    obtain ⟨⟨s₃, more'⟩, h₃, hsame⟩ := map_eq_ok.mp h₂
    cases hsame
    refine ⟨more', ?_, rfl⟩
    rw [replayWALFile_eq]
    exact bind_eq_ok.mpr ⟨s₂, replayLines_any path _ _ 0 h₁, h₃⟩
  · rintro ⟨more', h, rfl⟩
    rw [replayWALFile_eq] at h
    obtain ⟨s₂, h₁, h₂⟩ := bind_eq_ok.mp h
    refine ⟨s₂, replayLines_any path _ 0 _ h₁, ?_⟩
    rw [replayTail_append _ hlen, h₂]
    rfl

theorem replayFile_ok {file file' : Option Bytes}
    (h : replayFile C H path file s = .ok (s', file')) :
    file'.isSome = file.isSome ∧ ∃ lines, file'.getD [] = Lines.join newline lines ∧
      (∀ l ∈ lines, newline ∉ l) ∧ ∀ path' i, replayLines C H path' i lines s = .ok s' := by
  cases file with
  | none =>
    cases h
    exact ⟨rfl, [], rfl, fun _ hl => absurd hl List.not_mem_nil, fun _ _ => rfl⟩
  | some data =>
    obtain ⟨⟨s₁, data'⟩, hfile, hsame⟩ := map_eq_ok.mp h
    cases hsame
    exact ⟨rfl, replayWALFile_ok hfile⟩

theorem recover_eq (d : Dir) (store : σ) : recover C H d store =
    (loadSnapshot C H d.snapshot store).bind fun s =>
      (replayFile C H .active d.active s).bind fun x =>
        (replayFile C H .tmp d.tmp x.1).map fun y =>
          (y.1, if y.2.isSome then
            rebuildActive { d with snapshotTmp := none, active := x.2, tmp := y.2 }
            else { d with snapshotTmp := none, active := x.2, tmp := y.2 }) := by
  have hmap : ∀ {α β : Type} (x : Except RecoverError α) (f : α → β),
      x.map f = x.bind fun a => .ok (f a) := by
    intro α β x f
    cases x <;> rfl
  rfl

/-- **A recovered directory** has its snapshot, no temporary log, and an active log of whole lines
whose replay ends where the recovery ended. -/
theorem recover_ok {d' : Dir} (h : recover C H d store = .ok (s', d')) :
    d'.snapshot = d.snapshot ∧ d'.tmp = none ∧ ∃ s lines, loadSnapshot C H d.snapshot store = .ok s ∧
      d'.active.getD [] = Lines.join newline lines ∧ (∀ l ∈ lines, newline ∉ l) ∧
      ∀ path i, replayLines C H path i lines s = .ok s' := by
  rw [recover_eq] at h
  obtain ⟨s, hsnap, h⟩ := bind_eq_ok.mp h
  obtain ⟨⟨s₁, active⟩, hactive, h⟩ := bind_eq_ok.mp h
  obtain ⟨⟨s₂, tmp⟩, htmp, hsame⟩ := map_eq_ok.mp h
  obtain ⟨-, lines, hdata, hmarks, hreplay⟩ := replayFile_ok hactive
  obtain ⟨-, lines', hdata', hmarks', hreplay'⟩ := replayFile_ok htmp
  cases hsame
  refine ⟨by dsimp only; split <;> rfl, ?_, s, lines ++ lines', hsnap, ?_, ?_, fun path i => ?_⟩
  · dsimp only
    cases tmp with
    | none => rfl
    | some data => rfl
  · rw [Lines.join_append, ← hdata, ← hdata']
    cases tmp with
    | none => simp
    | some data => rfl
  · intro l hl
    exact (List.mem_append.mp hl).elim (hmarks l) (hmarks' l)
  · rw [replayLines_append]
    exact bind_eq_ok.mpr ⟨s₁, hreplay path i, hreplay' path _⟩

/-- **What is appended to a recovered log** is replayed from where the recovery ended. -/
theorem recover_append {d₁ : Dir} (h : recover C H d store = .ok (s₁, d₁)) (more : Bytes) :
    (∃ d', recover C H { d₁ with active := some (d₁.active.getD [] ++ more) } store = .ok (s', d')) ↔
      ∃ more', replayWALFile C H .active more s₁ = .ok (s', more') := by
  obtain ⟨hsnap, htmp, s, lines, hload, hdata, hmarks, hlines⟩ := recover_ok h
  have hjoin : ∀ {data' : Bytes},
      replayWALFile C H .active (Lines.join newline lines ++ more) s = .ok (s', data') ↔
        ∃ more', replayWALFile C H .active more s₁ = .ok (s', more') ∧
          Lines.join newline lines ++ more' = data' :=
    replayWALFile_join hmarks (hlines .active)
  constructor
  · rintro ⟨d', hrec⟩
    rw [recover_eq] at hrec
    obtain ⟨s₀, hload', hrec⟩ := bind_eq_ok.mp hrec
    obtain ⟨⟨s₂, active⟩, hactive, hrec⟩ := bind_eq_ok.mp hrec
    obtain ⟨⟨s₃, tmp⟩, htmp', hsame⟩ := map_eq_ok.mp hrec
    rw [hsnap, hload] at hload'
    cases hload'
    rw [htmp] at htmp'
    cases htmp'
    cases hsame
    obtain ⟨⟨s₂, data'⟩, hfile, hsame⟩ := map_eq_ok.mp hactive
    cases hsame
    rw [hdata] at hfile
    obtain ⟨more', hmore, -⟩ := hjoin.mp hfile
    exact ⟨more', hmore⟩
  · rintro ⟨more', hmore⟩
    have hfile := hjoin.mpr ⟨more', hmore, rfl⟩
    rw [← hdata] at hfile
    have hactive : replayFile C H .active (some (d₁.active.getD [] ++ more)) s =
        .ok (s', some (d₁.active.getD [] ++ more')) :=
      map_eq_ok.mpr ⟨_, hfile, rfl⟩
    refine ⟨{ d₁ with
      snapshotTmp := none, active := some (d₁.active.getD [] ++ more'), tmp := none }, ?_⟩
    rw [recover_eq]
    refine bind_eq_ok.mpr ⟨s, hsnap ▸ hload, bind_eq_ok.mpr ⟨_, hactive, ?_⟩⟩
    rw [htmp]
    exact map_eq_ok.mpr ⟨(s', none), rfl, rfl⟩

end Properties

end Cachey.Wal
