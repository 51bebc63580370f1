/-
# The writer of the write-ahead log

`wal.Writer` is the one goroutine that appends.  It gives every record its index, marshals it,
writes the line and syncs the file, and answers the caller.  In the states SEALING and ROTATING
mutations go to the temporary log or wait.

Any of the three calls of an append may fail (`AppendOutcome`).  The index is spent in any case,
and a failed write leaves some beginning of the line in the file.
-/
import Cachey.Wal.Recovery

namespace Cachey.Wal

/-- `WriterState`. -/
inductive WriterState where
  | idle
  | sealing
  | rotating
deriving DecidableEq, Repr

/-- What the environment makes of one append: `json.Marshal` fails, `Write` fails and leaves the
first `left` bytes of the line, `Sync` fails, or all succeed. -/
inductive AppendOutcome where
  | marshalFails
  | writeFails (left : ℕ)
  | syncFails
  | succeeds
deriving DecidableEq, Repr

/-- The answer to a mutation: nil, `ErrBusy`, or the error of the append. -/
inductive Reply where
  | ok
  | busy
  | failed
deriving DecidableEq, Repr

/-- `Writer`: `active` and `tmp` say whether the file is open. -/
structure Writer where
  lastIndex : ℕ
  active : Bool
  tmp : Bool
  tmpCount : ℕ
  tmpLimit : ℕ
  holdLimit : ℕ
  state : WriterState
  hold : List Record
  metaCount : ℕ
deriving DecidableEq

/-- A writer and the directory it writes to. -/
structure Running where
  writer : Writer
  dir : Dir
deriving DecidableEq

/-- `Record.marshal`: one line. -/
def Record.marshal (C : Codec) (rec : Record) : Bytes := C.encode rec ++ [newline]

/-- Bytes at the end of a log file. -/
def Dir.write (f : File) (b : Bytes) (d : Dir) : Dir :=
  match f with
  | .active => { d with active := some (d.active.getD [] ++ b) }
  | .tmp => { d with tmp := some (d.tmp.getD [] ++ b) }

namespace Running

/-- The writer counts a record that it has written. -/
def count (f : File) (w : Writer) : Writer :=
  match f with
  | .active => { w with metaCount := w.metaCount + 1 }
  | .tmp => { w with tmpCount := w.tmpCount + 1 }

/-- `append`; `none` is a nil file. -/
def append (C : Codec) (outcome : AppendOutcome) (rec : Record) (f : Option File) (r : Running) :
    Running × Reply :=
  match f with
  | none => (r, .busy)
  | some f =>
    let w := { r.writer with lastIndex := r.writer.lastIndex + 1 }
    let line := Record.marshal C { rec with logIndex := w.lastIndex }
    match outcome with
    | .marshalFails => ({ r with writer := w }, .failed)
    | .writeFails left => ({ writer := w, dir := r.dir.write f (line.take left) }, .failed)
    | .syncFails => ({ writer := w, dir := r.dir.write f line }, .failed)
    | .succeeds => ({ writer := count f w, dir := r.dir.write f line }, .ok)

/-- `holdMutation`: a mutation that is held has no answer yet. -/
def holdMutation (rec : Record) (r : Running) : Running × Option Reply :=
  if r.writer.hold.length ≥ r.writer.holdLimit then (r, some .busy)
  else ({ r with writer := { r.writer with hold := r.writer.hold ++ [rec] } }, none)

def handleMutation (C : Codec) (outcome : AppendOutcome) (rec : Record) (r : Running) :
    Running × Option Reply :=
  match r.writer.state with
  | .rotating => r.holdMutation rec
  | .sealing =>
    if r.writer.tmpCount ≥ r.writer.tmpLimit then r.holdMutation rec
    else
      let (r, reply) := r.append C outcome rec (if r.writer.tmp then some .tmp else none)
      (r, some reply)
  | .idle =>
    let (r, reply) := r.append C outcome rec (if r.writer.active then some .active else none)
    (r, some reply)

/-- The writer that `Open` starts behind a recovery: the active log is opened, and created if it
was not there. -/
def start (tmpLimit holdLimit last : ℕ) (d : Dir) : Running where
  writer :=
    { lastIndex := last, active := true, tmp := false, tmpCount := 0, tmpLimit := tmpLimit
      holdLimit := holdLimit, state := .idle, hold := [], metaCount := 0 }
  dir := { d with active := some (d.active.getD []) }

/-- The mutations in the order in which the writer receives them, and the answers. -/
def session (C : Codec) : List (Record × AppendOutcome) → Running → Running × List (Option Reply)
  | [], r => (r, [])
  | (rec, outcome) :: reqs, r =>
    let (r, reply) := r.handleMutation C outcome rec
    let (r, replies) := session C reqs r
    (r, reply :: replies)

end Running

end Cachey.Wal
