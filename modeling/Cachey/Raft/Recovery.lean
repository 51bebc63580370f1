/-
# Recovering a Raft node

`OpenRaftNode` on a directory that already holds data: the saved snapshot first, then every WAL
record in order, then the committed membership.  Term and vote are not among the durable data;
a node that comes back starts at term 0 without a vote.

The WAL assigns consecutive log indices of its own and hands the records back in the order they
were written, so of its checks on replay only the one for the operation is left here.
-/
import Cachey.Raft.Node

namespace Cachey.Raft

open Wal (Record)

namespace Node

variable {σ : Type}

def restoreSnapshot (E : Env σ) (snap : Snapshot) (n : Node σ) : Option (Node σ) :=
  (E.install n.fsm snap.data).map fun fsm =>
    { n with
      fsm := fsm
      log := n.log.reset snap.lastIncludedIndex snap.lastIncludedTerm
      commitIndex := max n.commitIndex snap.lastIncludedIndex
      lastApplied := max n.lastApplied snap.lastIncludedIndex }

/-- The entry `ApplyRecoveredRecord` makes of a record: a command is the record itself, encoded
again. -/
def recoveredEntry (E : Env σ) (rec : Record) : Option Entry :=
  match rec.op with
  | .config =>
    (E.decodeConfig rec.config).map fun cfg => { term := rec.term, config := some cfg }
  | .noop => some { term := rec.term }
  | _ => some { term := rec.term, command := some (E.encode rec) }

def applyRecoveredRecord (E : Env σ) (n : Node σ) (rec : Record) : Option (Node σ) :=
  (recoveredEntry E rec).map fun entry =>
    if rec.raftIndex ≤ n.log.baseIndex then n
    else
      let n := { n with log := n.log.set rec.raftIndex entry }
      match entry.config with
      | none => n
      | some cfg =>
        { n with peers := cfg.voters.filter fun id => id ≠ n.id }.registerPeers cfg.addrs

/-- The replay of `wal.Open`: a record with an unknown operation ends it with an error. -/
def replay (E : Env σ) : List Record → Node σ → Option (Node σ)
  | [], n => some n
  | rec :: recs, n =>
    if rec.op.known then (n.applyRecoveredRecord E rec).bind (replay E recs) else none

def adoptCommittedMeta (m : CommittedMeta) (n : Node σ) : Node σ :=
  { n with
    peers := m.voters.filter fun id => id ≠ n.id
    removed := n.id ∉ m.voters }.registerPeers m.addrs

/-- `OpenRaftNode` on the durable data of `old`: `fresh` is the new node before recovery, `bound`
its own address.  The journals are carried on. -/
def openRaftNode (E : Env σ) (fresh : Node σ) (bound : String) (old : Node σ) :
    Option (Node σ) := do
  let n := { fresh with
    wal := old.wal, snapshot := old.snapshot, savedMeta := old.savedMeta
    applied := old.applied, truncated := old.truncated }
  let n ← match old.snapshot with
    | none => some n
    | some snap => n.restoreSnapshot E snap
  let n ← n.replay E old.wal
  let n := { n with
    logStore := true, snapshotStore := true, metaStore := true
    addrs := n.addrs.insert n.id bound }
  return match old.savedMeta with
    | none => n
    | some m => n.adoptCommittedMeta m

end Node

end Cachey.Raft
