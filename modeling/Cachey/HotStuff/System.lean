/-
# A cluster of HotStuff replicas

`N = 3f+1` members, at most `f` of them Byzantine, fixed membership.  The state of the system is
the state of every correct replica and the TRACE of everything the correct replicas have done
(the concatenation of their journals, newest first).

The network is the adversary.  At any moment any message may be handed to any correct replica,
any number of times, in any order; not delivering is loss.  The only restriction is that
signatures cannot be forged: a delivered message may contain a signature that verifies under a
correct replica's key only on something that replica has signed before (`Admissible`).  A
Byzantine member is whatever the adversary sends in its name.

A step is one critical section of one correct replica: a `Propose` call, a delivered message, a
firing of `StartViewChange`, or the `requestBlock` that follows a parked block.  Durable writes
may fail in any way (`writes`), a replica may run with or without a log store, and a replica that
panicked takes no further step.
-/
import Cachey.HotStuff.Handlers
import Cachey.Lib.Machine

namespace Cachey.HotStuff

open Wal (WriteOutcome)

/-! ## 1. The signatures in a message -/

/-- The vote signatures stored in a certificate, with what each is a signature of. -/
def QC.sigs (qc : QC) : List (Signable × Bytes) :=
  qc.votes.entries.map fun e => (.vote qc.height qc.nodeID e.1, e.2)

/-- The signatures in a block's justification. -/
def Block.sigs (b : Block) : List (Signable × Bytes) := b.justify.toList.flatMap QC.sigs

def ViewChange.sigs (vc : ViewChange) : List (Signable × Bytes) :=
  (vc.signable, vc.sig) :: vc.highQC.toList.flatMap QC.sigs

namespace Message

def sigs : Message → List (Signable × Bytes)
  | proposal p => (p.signable, p.sig) :: (p.block.sigs ++ p.viewChanges.flatMap ViewChange.sigs)
  | vote v => [(v.signable, v.sig)]
  | viewChange vc => vc.sigs
  | fetch _ => []
  | block bm => (bm.signable, bm.sig) :: bm.block.sigs
  | getBlocks _ => []
  | blockBatch bb => (bb.signable, bb.sig) :: bb.blocks.flatMap Block.sigs

def blocks : Message → List Block
  | proposal p => [p.block]
  | block bm => [bm.block]
  | blockBatch bb => bb.blocks
  | _ => []

end Message

/-! ## 2. Inputs -/

/-- What makes a replica act. -/
inductive Input where
  | propose (cmd : Bytes)
  | deliver (m : Message)
  | startViewChange
  | requestBlock (peer : String) (id : BlockID)
deriving DecidableEq

namespace Replica

def handle (E : Env) (C : Ctx) (inp : Input) (n : Replica) : Replica :=
  match inp with
  | .propose cmd => (n.propose E C cmd).1
  | .startViewChange => n.startViewChange E C
  | .requestBlock peer id => n.requestBlock C peer id
  | .deliver (.proposal p) => (n.handleProposal E C p).1
  | .deliver (.vote v) => n.handleVote E v
  | .deliver (.viewChange vc) => n.handleViewChange E C vc
  | .deliver (.fetch f) => n.handleFetch E f
  | .deliver (.block bm) => (n.handleBlock E C bm).1
  | .deliver (.getBlocks g) => n.handleGetBlocks E g
  | .deliver (.blockBatch bb) => (n.handleBlockBatch E C bb).1

end Replica

/-- No membership command is proposed or carried by a block of the input. -/
def Input.plain (E : Env) : Input → Bool
  | .propose cmd => ! isMembershipCmd E cmd
  | .deliver m => m.blocks.all fun b => ! isMembershipBlock E b
  | _ => true

/-! ## 3. The cluster -/

/-- `N = 3f+1` named members with their keys; at most `f` are Byzantine. -/
structure Cluster where
  members : List String
  nodup : members.Nodup
  named : "" ∉ members
  f : Nat
  size : members.length = 3 * f + 1
  byzantine : List String
  faults : (members.filter fun m => m ∈ byzantine).length ≤ f
  leader : String
  leader_mem : leader ∈ members
  priv : String → Bytes
  durable : String → Bool

namespace Cluster

/-- `r` runs the code. -/
def Correct (K : Cluster) (r : String) : Prop := r ∈ K.members ∧ r ∉ K.byzantine

instance (K : Cluster) (r : String) : Decidable (K.Correct r) :=
  inferInstanceAs (Decidable (_ ∧ _))

/-- The configured public key of a member. -/
def key (E : Env) (K : Cluster) (m : String) : Bytes := E.publicKey (K.priv m)

def config (K : Cluster) (r : String) : Config :=
  { id := r, peers := K.members.erase r, leader := K.leader, privateKey := K.priv r }

/-- A replica at start-up: built by `NewReplica`, every member's key pinned, and its log store
set when it has one. -/
def boot (E : Env) (K : Cluster) (r : String) : Option Replica :=
  match newReplica E (K.config r) with
  | .error _ => none
  | .ok n =>
    let n := K.members.foldl (fun n m => (n.setPeerKey m (K.key E m)).1) n
    some { n with logStore := K.durable r }

end Cluster

/-! ## 4. States and steps -/

def Effect.executed : Effect → Option BlockID
  | .exec id => some id
  | _ => none

/-- The vote an effect signs: height, block and the voter named. -/
def Effect.vote : Effect → Option (Nat × BlockID × String)
  | .signed (.vote h id v) => some (h, id, v)
  | _ => none

/-- The blocks executed in a journal. -/
def execsOf (out : List Effect) : List BlockID := out.filterMap Effect.executed

/-- The votes signed in a journal. -/
def votesOf (out : List Effect) : List (Nat × BlockID × String) := out.filterMap Effect.vote

/-- The correct replicas and the trace of what they did, newest first. -/
structure ClusterState where
  replica : String → Replica
  trace : List (String × Effect)

/-- One step: who acts, on what, and what it finds outside. -/
structure Label where
  actor : String
  input : Input
  ctx : Ctx
  writes : List WriteOutcome

namespace ClusterState

/-- What `r` has done, newest first. -/
def journal (s : ClusterState) (r : String) : List Effect :=
  s.trace.filterMap fun e => if e.1 = r then some e.2 else none

/-- The blocks `r` has signed votes for, newest first; self-votes included. -/
def votes (s : ClusterState) (r : String) : List BlockID := (votesOf (s.journal r)).map (·.2.1)

/-- The blocks `r` has executed, newest first. -/
def executed (s : ClusterState) (r : String) : List BlockID := execsOf (s.journal r)

/-- Every correct replica has just been started. -/
def Init (E : Env) (K : Cluster) (s : ClusterState) : Prop :=
  s.trace = [] ∧ ∀ r, K.Correct r → K.boot E r = some (s.replica r)

/-- The effect of a step: the actor's handler runs on an empty journal, and the journal is
prepended to the trace. -/
def act (E : Env) (s : ClusterState) (l : Label) : ClusterState :=
  let n := { s.replica l.actor with out := [], writes := l.writes }.handle E l.ctx l.input
  { replica := fun r => if r = l.actor then n else s.replica r
    trace := n.out.map (fun e => (l.actor, e)) ++ s.trace }

/-- Signatures cannot be forged: what verifies under a correct key has been signed. -/
def Unforged (E : Env) (K : Cluster) (s : ClusterState) (m : Message) : Prop :=
  ∀ x ∈ m.sigs, ∀ i ∈ K.members, i ∉ K.byzantine →
    E.verify (K.key E i) x.1 x.2 = true → (i, Effect.signed x.1) ∈ s.trace

/-- An input that can occur: an unforged message, no membership command. -/
def Admissible (E : Env) (K : Cluster) (s : ClusterState) (inp : Input) : Prop :=
  inp.plain E = true ∧ (match inp with
    | .deliver m => s.Unforged E K m
    | _ => True)

def Enabled (E : Env) (K : Cluster) (s : ClusterState) (l : Label) : Prop :=
  K.Correct l.actor ∧ (s.replica l.actor).panicked = false ∧ s.Admissible E K l.input

instance (E : Env) (K : Cluster) (s : ClusterState) (m : Message) : Decidable (s.Unforged E K m) :=
  inferInstanceAs (Decidable (∀ _ ∈ _, ∀ _ ∈ _, _))

instance (E : Env) (K : Cluster) (s : ClusterState) (inp : Input) : Decidable (s.Admissible E K inp) :=
  match inp with
  | .deliver m => inferInstanceAs (Decidable (_ ∧ s.Unforged E K m))
  | .propose _ => inferInstanceAs (Decidable (_ ∧ True))
  | .startViewChange => inferInstanceAs (Decidable (_ ∧ True))
  | .requestBlock _ _ => inferInstanceAs (Decidable (_ ∧ True))

instance (E : Env) (K : Cluster) (s : ClusterState) (l : Label) : Decidable (s.Enabled E K l) :=
  inferInstanceAs (Decidable (_ ∧ _))

def machine (E : Env) (K : Cluster) : Machine ClusterState Label where
  enabled := fun s l => s.Enabled E K l
  act := fun s l => s.act E l

def Reachable (E : Env) (K : Cluster) (s : ClusterState) : Prop :=
  ∃ s₀, Init E K s₀ ∧ (machine E K).Steps s₀ s

end ClusterState

end Cachey.HotStuff
