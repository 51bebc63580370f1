/-
# WAL records

The logical entry of the write-ahead log (`wal.Record`).  One record type serves three users:
the store's mutations (PUT, DEL, TTL), the Raft log (which adds NOOP and CONFIG, a term and a
Raft index) and the HotStuff engine (whose entries travel in `data` under HOTSTUFF).

`Op` is a string type in the source.  The constants are constructors here and every other
string is `other`, so that a record with an operation nobody knows can still be written down.
-/
import Mathlib.Algebra.Ring.Nat

namespace Cachey

abbrev Bytes := List UInt8

/-- Addition on `uint64` counters wraps around. -/
def u64 (n : Nat) : Nat := n % 2 ^ 64

theorem u64_of_lt {n : Nat} (h : n < 2 ^ 64) : u64 n = n := Nat.mod_eq_of_lt h

namespace Wal

/-- `wal.Op`: the type of a WAL record. -/
inductive Op where
  | put
  | delete
  | ttl
  | noop
  | config
  | hotStuff
  | membership
  | other (text : String)
deriving DecidableEq, Repr

/-- The operations recovery knows (`validateRec`). -/
def Op.known : Op → Bool
  | .put | .delete | .ttl | .noop | .config | .hotStuff => true
  | .membership | .other _ => false

/-- `wal.Record`: a single logical WAL entry. -/
structure Record where
  op : Op
  key : String := ""
  val : String := ""
  exp : Int := 0
  logIndex : Nat := 0
  term : Nat := 0
  raftIndex : Nat := 0
  config : Bytes := []
  data : Bytes := []
deriving DecidableEq, Repr

/-- `wal.SnapshotEntry`: one key-value pair of a snapshot. -/
structure SnapshotEntry where
  key : String
  val : String
  exp : Int := 0
deriving DecidableEq, Repr

/-- What becomes of one durable write.  `late` is an error reported for a record that reaches the
file all the same: the caller's deadline passes while the writer still has it in its queue. -/
inductive WriteOutcome where
  | ok
  | lost
  | late
deriving DecidableEq, Repr

end Wal

end Cachey
