/-
# One HotStuff replica and its disk

`hotstuff_node.go`: how a replica is opened, what of it is on disk, and what happens to it there.
A host holds the running replica, the HOTSTUFF records of its log, and its checkpoint file.  Its
events are

* a call of the engine (`Input`), with the outcomes of the durable writes it makes;
* a garbage collection, the write of the checkpoint it returned, and the rotation of the log that
  follows -- three moments, with calls of the engine in between;
* a restart: the process is gone, and the replica is rebuilt from checkpoint and log.

No restriction is made on what the network delivers: every message is a possible input.  The
records of the store in the shared log play no part here.
-/
import Cachey.HotStuff.Recovery
import Cachey.HotStuff.System

namespace Cachey.HotStuff

open Wal (WriteOutcome)
open Replica (Checkpoint)

/-- How a replica is opened: its configuration, the keys pinned before any traffic
(`repinHSPeers`, then `SetValidatorKeys`), and whether it has a log store. -/
structure Setup where
  config : Config
  keys : List (String × Bytes)
  durable : Bool

namespace Setup

def fresh (E : Env) (K : Setup) : Except ConfigError Replica :=
  match newReplica E K.config with
  | .error e => .error e
  | .ok n => .ok (K.keys.foldl (fun n k => (n.setPeerKey k.1 k.2).1) n)

/-- `OpenHotStuffNode`: the checkpoint, then the log, then the log store and `FinishRecovery`. -/
def reopen (E : Env) (K : Setup) (checkpoint : Option Checkpoint) (log : List PersistEntry) :
    Except ConfigError Replica :=
  match K.fresh E with
  | .error e => .error e
  | .ok n =>
    let n := match checkpoint with
      | none => n
      | some cp => n.loadCheckpoint cp
    let n := log.foldl (fun n pe => n.applyRecoveredEntry pe) n
    .ok ({ n with logStore := K.durable }.finishRecovery E)

end Setup

/-- The record an effect leaves in the log. -/
def Effect.durable : Effect → Option PersistEntry
  | .wrote pe outcome => if outcome = .lost then none else some pe
  | _ => none

/-- The records a journal leaves in the log, oldest first. -/
def durableOf (out : List Effect) : List PersistEntry := (out.filterMap Effect.durable).reverse

/-- A replica with what is on its disk. -/
structure Host where
  node : Replica
  /-- the HOTSTUFF records of the log, oldest first -/
  log : List PersistEntry
  /-- the checkpoint file -/
  checkpoint : Option Checkpoint
  /-- returned by `GC`, not written yet -/
  taken : Option Checkpoint
  /-- the checkpoint is written, the log not yet rotated -/
  rotating : Bool
  /-- everything the replica has done, newest first -/
  trace : List Effect

/-- What happens to a host. -/
inductive Event where
  | call (input : Input) (ctx : Ctx) (writes : List WriteOutcome)
  | gc
  | writeCheckpoint
  | rotate
  | restart

namespace Host

/-- A host at its first start. -/
def start (K : Setup) (n : Replica) : Host :=
  { node := { n with logStore := K.durable }, log := [], checkpoint := none, taken := none,
    rotating := false, trace := [] }

/-- The state a call of the engine starts in: an empty journal, and the outcomes of its writes. -/
def ready (s : Host) (writes : List WriteOutcome) : Replica :=
  { s.node with out := [], writes := writes }

def act (E : Env) (K : Setup) (s : Host) : Event → Host
  | .call input ctx writes =>
    let n := (s.ready writes).handle E ctx input
    { s with node := n, log := s.log ++ durableOf n.out, trace := n.out ++ s.trace }
  | .gc =>
    let r := s.node.gcLocked
    { s with node := r.1, taken := r.2.or s.taken }
  | .writeCheckpoint => { s with checkpoint := s.taken.or s.checkpoint, taken := none,
                                 rotating := s.taken.isSome || s.rotating }
  | .rotate => { s with log := [], rotating := false }
  | .restart =>
    match K.reopen E s.checkpoint s.log with
    | .error _ => s
    | .ok n => { s with node := n, taken := none, rotating := false }

/-- A process that panicked does nothing but restart; the log is rotated after the checkpoint. -/
def Enabled (s : Host) : Event → Prop
  | .restart => True
  | .rotate => s.node.panicked = false ∧ s.rotating = true
  | _ => s.node.panicked = false

instance (s : Host) (e : Event) : Decidable (s.Enabled e) := by
  unfold Enabled
  split <;> infer_instance

def machine (E : Env) (K : Setup) : Machine Host Event where
  enabled := fun s e => s.Enabled e
  act := fun s e => s.act E K e

end Host

/-- An event of the running process on its memory: no file is written but the log. -/
def Event.live : Event → Bool
  | .call _ _ _ => true
  | .gc => true
  | _ => false

end Cachey.HotStuff
