/-
# A cluster of Raft nodes

The state of the system is every server's node, the RPC calls made so far, and the goroutines
that are between two critical sections.

* **The network.**  A call records its request, the replies the callee has sent, and whether the
  caller still waits.  A request may be served any number of times, at any later moment, in any
  order, or never; the caller takes AT MOST ONE of the replies, or an error.  A request is what its
  sender has put together under its lock; the entries of an AppendEntries, which the source hands
  to the transport without a copy, get the array they live in only in `Sharing`.
* **Goroutines.**  What a goroutine has read in one critical section and uses in a later one is
  part of the state: a candidacy before `startElection` reads the term again, an election's vote
  count, a pending `tryBecomeLeader`, a `broadcastAppendEntries` about to read the peers, a
  `replicateTo` about to read the log, a leadership confirmation and the read that waits for it.
* **Crashes.**  A step may be cut short: the actor's durable writes end as `writes` and `saves`
  say, its memory and its goroutines are gone, nothing it was about to send is sent, and it comes
  back through `OpenRaftNode`.
* **History.**  A read remembers how far the servers had committed when it was called (`floor`).
  No step looks at it.
-/
import Cachey.Raft.Recovery
import Cachey.Lib.Machine

namespace Cachey.Raft

open Wal (WriteOutcome)

/-! ## 1. Calls and goroutines -/

/-- A request, what its reply is wanted for, and the replies so far. -/
inductive Rpc where
  | vote (election : ℕ) (args : RequestVote) (replies : List RequestVoteReply)
  | append (confirm : Option ℕ) (args : AppendEntries) (replies : List AppendEntriesReply)
  | snapshot (args : InstallSnapshot) (replies : List InstallSnapshotReply)
deriving DecidableEq

structure Call where
  caller : String
  callee : String
  rpc : Rpc
  waiting : Bool := true
deriving DecidableEq

/-- The callee handles the request; its reply is on the way. -/
def Call.serve {σ : Type} (E : Env σ) (c : Call) (n : Node σ) : Node σ × Call :=
  match c.rpc with
  | .vote e args replies =>
    let (n, reply) := n.handleRequestVote args
    (n, { c with rpc := .vote e args (replies ++ [reply]) })
  | .append k args replies =>
    let (n, reply) := n.handleAppendEntries E args
    (n, { c with rpc := .append k args (replies ++ [reply]) })
  | .snapshot args replies =>
    let (n, reply) := n.handleInstallSnapshot E args
    (n, { c with rpc := .snapshot args (replies ++ [reply]) })

/-- The number of replies to choose from. -/
def Call.replied (c : Call) : ℕ :=
  match c.rpc with
  | .vote _ _ rs => rs.length
  | .append _ _ rs => rs.length
  | .snapshot _ rs => rs.length

/-- A `startElection` that has read the term and the peers.  `promoting` is the time between the
last vote it needed and `tryBecomeLeader`; it holds the election's own lock. -/
structure Election where
  node : String
  term : ℕ
  majority : ℕ
  votes : ℕ := 1
  promoting : Bool := false
  alone : Bool := false
deriving DecidableEq

/-- A `confirmLeadership` that has read the log and the commit index; `read` is the read it is
for, if any.  `sent` is the number of sends, once they are made. -/
structure Confirm where
  node : String
  read : Option ℕ
  majority : ℕ
  args : AppendEntries
  sent : Option ℕ := none
  finished : ℕ := 0
  acks : ℕ := 1
  steppedDown : Bool := false
deriving DecidableEq

/-- Where a `ReadIndex` stands. -/
inductive ReadState where
  | waiting
  | ready (readIdx term : ℕ)
  | confirming (readIdx term confirm : ℕ)
  | applying (readIdx : ℕ)
  | done (readIdx : ℕ)
  | failed
deriving DecidableEq

structure Read where
  node : String
  floor : ℕ
  state : ReadState := .waiting
deriving DecidableEq

/-- A `ClusterStore.propose` whose `Propose` has returned `index`; `acked` once `WaitApplied`
has returned nil. -/
structure Proposal where
  node : String
  index : ℕ
  entry : Entry
  waiting : Bool := true
  acked : Bool := false
deriving DecidableEq

/-! ## 2. The cluster -/

/-- The servers, and which of them are the voters at start.  A server outside the voters starts
without peers. -/
structure Cluster (σ : Type) where
  servers : List String
  voters : List String
  nodup : voters.Nodup
  named : "" ∉ voters
  fsm : σ
  threshold : String → ℕ
  logStore : String → Bool
  snapshotStore : String → Bool
  metaStore : String → Bool
  bound : String → String

/-- A server's node before recovery or start. -/
def Cluster.boot {σ : Type} (K : Cluster σ) (r : String) : Node σ :=
  newNode r (if r ∈ K.voters then K.voters.erase r else []) (K.threshold r) K.fsm
    (K.logStore r) (K.snapshotStore r) (K.metaStore r)

structure ClusterState (σ : Type) where
  node : String → Node σ
  calls : List Call
  campaigns : List String
  elections : List Election
  broadcasts : List String
  spawned : List (String × String)
  lagging : List (String × String)
  resigning : List String
  confirms : List Confirm
  reads : List Read
  proposals : List Proposal

/-- Every server has just been started. -/
def Cluster.start {σ : Type} (K : Cluster σ) : ClusterState σ where
  node := K.boot
  calls := []
  campaigns := []
  elections := []
  broadcasts := []
  spawned := []
  lagging := []
  resigning := []
  confirms := []
  reads := []
  proposals := []

/-- What happens next. -/
inductive Action where
  /-- the election timer fires: `becomeCandidate` -/
  | timeout (r : String)
  /-- the first part of `startElection` -/
  | campaign (r : String)
  /-- `tryBecomeLeader` after enough votes -/
  | promote (e : ℕ)
  /-- the callee handles a request -/
  | serve (k : ℕ)
  /-- the caller takes a reply -/
  | reply (k j : ℕ)
  /-- a call ends with an error -/
  | fail (k : ℕ)
  /-- the heartbeat ticker of a leader -/
  | tick (r : String)
  /-- `broadcastAppendEntries` reads the peers -/
  | broadcast (j : ℕ)
  /-- `replicateTo` reads the log -/
  | replicate (j : ℕ)
  /-- `sendSnapshot` reads the snapshot -/
  | snapshot (j : ℕ)
  /-- the end of a deferred step-down -/
  | resign (j : ℕ)
  | propose (r : String) (command : Option Bytes)
  /-- `WaitApplied` returns nil -/
  | waitApplied (p : ℕ)
  | addServer (r id addr : String)
  | removeServer (r id : String)
  | readIndex (r : String)
  /-- the read records the commit index -/
  | observe (k : ℕ)
  /-- `confirmLeadership` reads the log -/
  | confirm (k : ℕ)
  /-- `confirmLeadership` sends -/
  | fanOut (c : ℕ)
  /-- `confirmLeadership` returns -/
  | conclude (c : ℕ)
  /-- the read returns -/
  | finish (k : ℕ)
  /-- nothing; a crash between two critical sections -/
  | idle (r : String)
deriving DecidableEq

/-- A step: the action, how the actor's durable writes end, and whether it crashes. -/
structure Label where
  action : Action
  writes : List WriteOutcome := []
  saves : List Bool := []
  crash : Bool := false

/-! ## 3. Steps -/

namespace ClusterState

variable {σ : Type}

/-- Server `r` is in a new state. -/
def setNode (s : ClusterState σ) (r : String) (n : Node σ) : ClusterState σ :=
  { s with node := fun q => if q = r then n else s.node q }

def close (s : ClusterState σ) (k : ℕ) : ClusterState σ :=
  { s with calls := s.calls.modify k fun c => { c with waiting := false } }

/-- One goroutine per peer sends the same request. -/
def sendAll (s : ClusterState σ) (caller : String) (callees : List String) (rpc : Rpc) :
    ClusterState σ :=
  { s with calls := s.calls ++ callees.map fun p => { caller := caller, callee := p, rpc := rpc } }

def actor (s : ClusterState σ) : Action → String
  | .timeout r | .campaign r | .tick r | .propose r _ | .addServer r _ _ | .removeServer r _
  | .readIndex r | .idle r => r
  | .promote e => (s.elections[e]?.map Election.node).getD ""
  | .serve k => (s.calls[k]?.map Call.callee).getD ""
  | .reply k _ | .fail k => (s.calls[k]?.map Call.caller).getD ""
  | .broadcast j => s.broadcasts[j]?.getD ""
  | .replicate j => (s.spawned[j]?.map Prod.fst).getD ""
  | .snapshot j => (s.lagging[j]?.map Prod.fst).getD ""
  | .resign j => s.resigning[j]?.getD ""
  | .waitApplied p => (s.proposals[p]?.map Proposal.node).getD ""
  | .observe k | .confirm k | .finish k => (s.reads[k]?.map Read.node).getD ""
  | .fanOut c | .conclude c => (s.confirms[c]?.map Confirm.node).getD ""

/-- `becomeCandidate`; on success `startElection` follows. -/
def timeout (s : ClusterState σ) (r : String) : ClusterState σ :=
  let (n, ok) := (s.node r).becomeCandidate
  { s.setNode r n with campaigns := if ok then s.campaigns ++ [r] else s.campaigns }

/-- `startElection` up to the sends. -/
def campaign (s : ClusterState σ) (r : String) : ClusterState σ :=
  let n := s.node r
  let alone := n.peers.isEmpty
  let s := s.sendAll r n.peers (.vote s.elections.length n.voteRequest [])
  { s with
    campaigns := s.campaigns.erase r
    elections := s.elections ++
      [{ node := r, term := n.currentTerm, majority := n.majorityLocked
         promoting := alone, alone := alone }] }

def promote (E : Env σ) (s : ClusterState σ) (e : ℕ) (el : Election) : ClusterState σ :=
  let (n, ok) := (s.node el.node).tryBecomeLeader E el.term
  { s.setNode el.node n with
    elections := s.elections.modify e fun el => { el with promoting := false }
    broadcasts := if ok ∨ el.alone then s.broadcasts ++ [el.node] else s.broadcasts }

def serve (E : Env σ) (s : ClusterState σ) (k : ℕ) (c : Call) : ClusterState σ :=
  let (n, c') := c.serve E (s.node c.callee)
  { s.setNode c.callee n with calls := s.calls.set k c' }

/-- A vote reply reaches `startElection`. -/
def voteReply (s : ClusterState σ) (k : ℕ) (c : Call) (e : ℕ) (args : RequestVote)
    (reply : RequestVoteReply) : ClusterState σ :=
  let (n, counts) := (s.node c.caller).onVoteReply args.term reply
  let s := (s.setNode c.caller n).close k
  if counts then
    { s with elections := s.elections.modify e fun el =>
      { el with votes := el.votes + 1, promoting := el.votes + 1 ≥ el.majority } }
  else s

/-- A heartbeat's reply reaches `confirmLeadership`. -/
def heartbeatReply (s : ClusterState σ) (k : ℕ) (c : Call) (confirm : ℕ)
    (reply : AppendEntriesReply) : ClusterState σ :=
  let (n, higher) := (s.node c.caller).onHeartbeatReply reply
  { (s.setNode c.caller n).close k with
    confirms := s.confirms.modify confirm fun cf =>
      { cf with
        finished := cf.finished + 1
        steppedDown := cf.steppedDown || higher
        acks := if ¬ higher ∧ reply.success then cf.acks + 1 else cf.acks } }

/-- The caller takes the reply number `j`. -/
def takeReply (E : Env σ) (s : ClusterState σ) (k j : ℕ) (c : Call) : ClusterState σ :=
  match c.rpc with
  | .vote e args replies =>
    match replies[j]? with
    | none => s
    | some reply => s.voteReply k c e args reply
  | .append (some confirm) _ replies =>
    match replies[j]? with
    | none => s
    | some reply => s.heartbeatReply k c confirm reply
  | .append none args replies =>
    match replies[j]? with
    | none => s
    | some reply =>
      (s.setNode c.caller ((s.node c.caller).onAppendReply E c.callee args reply)).close k
  | .snapshot args replies =>
    match replies[j]? with
    | none => s
    | some reply =>
      (s.setNode c.caller ((s.node c.caller).onSnapshotReply E c.callee args reply)).close k

/-- The call ends with an error: of the callers only `confirmLeadership` keeps count. -/
def fail (s : ClusterState σ) (k : ℕ) (c : Call) : ClusterState σ :=
  match c.rpc with
  | .append (some confirm) _ _ =>
    { s.close k with
      confirms := s.confirms.modify confirm fun cf => { cf with finished := cf.finished + 1 } }
  | _ => s.close k

/-- `confirmLeadership` up to the sends: nothing to do without peers, refused unless leader. -/
def openConfirm (s : ClusterState σ) (r : String) (read : Option ℕ) : ClusterState σ :=
  match (s.node r).heartbeat with
  | none => s
  | some args =>
    if (s.node r).peers.isEmpty then s
    else
      { s with confirms := s.confirms ++
          [{ node := r, read := read, majority := (s.node r).majorityLocked, args := args }] }

/-- A tick of a leader's heartbeat loop. -/
def tick (s : ClusterState σ) (r : String) : ClusterState σ :=
  if (s.node r).role ≠ .leader then s
  else if (s.node r).pendingStepDown then
    { s.openConfirm r none with resigning := s.resigning ++ [r] }
  else { s with broadcasts := s.broadcasts ++ [r] }

def broadcast (s : ClusterState σ) (j : ℕ) (r : String) : ClusterState σ :=
  { s with
    broadcasts := s.broadcasts.eraseIdx j
    spawned := s.spawned ++ (s.node r).replicateSetLocked.map fun p => (r, p) }

def replicate (s : ClusterState σ) (j : ℕ) (r peer : String) : ClusterState σ :=
  let rest := { s with spawned := s.spawned.eraseIdx j }
  match (s.node r).replicateTo peer with
  | .idle => rest
  | .snapshot => { rest with lagging := s.lagging ++ [(r, peer)] }
  | .append args => rest.sendAll r [peer] (.append none args [])

def snapshot (s : ClusterState σ) (j : ℕ) (r peer : String) : ClusterState σ :=
  let rest := { s with lagging := s.lagging.eraseIdx j }
  match (s.node r).sendSnapshot with
  | none => rest
  | some args => rest.sendAll r [peer] (.snapshot args [])

def resign (s : ClusterState σ) (j : ℕ) (r : String) : ClusterState σ :=
  { s.setNode r (s.node r).resign with resigning := s.resigning.eraseIdx j }

/-- `ClusterStore.propose` up to `WaitApplied`. -/
def propose (E : Env σ) (s : ClusterState σ) (r : String) (command : Option Bytes) :
    ClusterState σ :=
  match (s.node r).propose E command with
  | (n, .error _) => s.setNode r n
  | (n, .ok idx) =>
    let entry : Entry := { term := (s.node r).currentTerm, command := command }
    { s.setNode r n with
      broadcasts := s.broadcasts ++ [r]
      proposals := s.proposals ++ [{ node := r, index := idx, entry := entry }] }

/-- `AddServer` or `RemoveServer`, up to `WaitApplied`. -/
def changeMembers (s : ClusterState σ) (r : String) (result : Node σ × Except Error ℕ) :
    ClusterState σ :=
  match result with
  | (n, .error _) => s.setNode r n
  | (n, .ok _) => { s.setNode r n with broadcasts := s.broadcasts ++ [r] }

def waitApplied (s : ClusterState σ) (p : ℕ) : ClusterState σ :=
  { s with proposals := s.proposals.modify p fun q => { q with waiting := false, acked := true } }

/-- How far any of the servers has committed. -/
def committed (s : ClusterState σ) (servers : List String) : ℕ :=
  (servers.map fun r => (s.node r).commitIndex).foldr max 0

def setRead (s : ClusterState σ) (k : ℕ) (state : ReadState) : ClusterState σ :=
  { s with reads := s.reads.modify k fun rd => { rd with state := state } }

/-- `confirmLeadership`, called by a read that has its index. -/
def confirm (s : ClusterState σ) (k : ℕ) (rd : Read) : ClusterState σ :=
  match rd.state with
  | .ready readIdx term =>
    if (s.node rd.node).peers.isEmpty then s.setRead k (.applying readIdx)
    else if (s.node rd.node).role ≠ .leader then s.setRead k .failed
    else (s.openConfirm rd.node (some k)).setRead k (.confirming readIdx term s.confirms.length)
  | _ => s

def fanOut (s : ClusterState σ) (c : ℕ) (cf : Confirm) : ClusterState σ :=
  let peers := (s.node cf.node).peers
  { s.sendAll cf.node peers (.append (some c) cf.args []) with
    confirms := s.confirms.modify c fun cf => { cf with sent := some peers.length } }

/-- `confirmLeadership` has been signalled. -/
def conclude (s : ClusterState σ) (c : ℕ) (cf : Confirm) : ClusterState σ :=
  match cf.read with
  | none => s
  | some k =>
    match s.reads[k]?.map Read.state with
    | some (.confirming readIdx _ c') =>
      if c' ≠ c then s
      else if cf.steppedDown ∨ (s.node cf.node).role ≠ .leader then s.setRead k .failed
      else s.setRead k (.applying readIdx)
    | _ => s

def finish (s : ClusterState σ) (k : ℕ) (rd : Read) : ClusterState σ :=
  match rd.state with
  | .applying readIdx => s.setRead k (.done readIdx)
  | _ => s

def perform (E : Env σ) (K : Cluster σ) (s : ClusterState σ) : Action → ClusterState σ
  | .timeout r => s.timeout r
  | .campaign r => s.campaign r
  | .promote e => match s.elections[e]? with
    | some el => s.promote E e el
    | none => s
  | .serve k => match s.calls[k]? with
    | some c => s.serve E k c
    | none => s
  | .reply k j => match s.calls[k]? with
    | some c => s.takeReply E k j c
    | none => s
  | .fail k => match s.calls[k]? with
    | some c => s.fail k c
    | none => s
  | .tick r => s.tick r
  | .broadcast j => match s.broadcasts[j]? with
    | some r => s.broadcast j r
    | none => s
  | .replicate j => match s.spawned[j]? with
    | some (r, peer) => s.replicate j r peer
    | none => s
  | .snapshot j => match s.lagging[j]? with
    | some (r, peer) => s.snapshot j r peer
    | none => s
  | .resign j => match s.resigning[j]? with
    | some r => s.resign j r
    | none => s
  | .propose r command => s.propose E r command
  | .waitApplied p => s.waitApplied p
  | .addServer r id addr => s.changeMembers r ((s.node r).addServer E id addr)
  | .removeServer r id => s.changeMembers r ((s.node r).removeServer E id)
  | .readIndex r => { s with reads := s.reads ++ [{ node := r, floor := s.committed K.servers }] }
  | .observe k => match s.reads[k]? with
    | some rd =>
      s.setRead k (.ready (s.node rd.node).commitIndex (s.node rd.node).currentTerm)
    | none => s
  | .confirm k => match s.reads[k]? with
    | some rd => s.confirm k rd
    | none => s
  | .fanOut c => match s.confirms[c]? with
    | some cf => s.fanOut c cf
    | none => s
  | .conclude c => match s.confirms[c]? with
    | some cf => s.conclude c cf
    | none => s
  | .finish k => match s.reads[k]? with
    | some rd => s.finish k rd
    | none => s
  | .idle _ => s

/-- What is there to be done: the goroutine exists and its condition holds. -/
def possible (s : ClusterState σ) : Action → Bool
  | .timeout r => r ∉ s.campaigns
  | .campaign r => r ∈ s.campaigns
  | .promote e => s.elections[e]?.any Election.promoting
  | .serve k => k < s.calls.length
  | .reply k j => s.calls[k]?.any fun c => c.waiting && j < c.replied &&
      match c.rpc with
      | .vote e _ _ => ! s.elections[e]?.any Election.promoting
      | _ => true
  | .fail k => s.calls[k]?.any Call.waiting
  | .tick r => (s.node r).role = .leader
  | .broadcast j => j < s.broadcasts.length
  | .replicate j => j < s.spawned.length
  | .snapshot j => j < s.lagging.length
  | .resign j => j < s.resigning.length
  | .propose _ _ | .addServer _ _ _ | .removeServer _ _ | .idle _ => true
  | .waitApplied p => s.proposals[p]?.any fun q =>
      q.waiting && q.index ≤ (s.node q.node).lastApplied
  | .readIndex r => (s.node r).role = .leader
  | .observe k => s.reads[k]?.any fun rd => rd.state = .waiting &&
      (s.node rd.node).role = .leader && (s.node rd.node).noopIndex ≤ (s.node rd.node).commitIndex
  | .confirm k => s.reads[k]?.any fun rd => match rd.state with
      | .ready _ _ => true
      | _ => false
  | .fanOut c => s.confirms[c]?.any fun cf => cf.sent.isNone
  | .conclude c => s.confirms[c]?.any fun cf =>
      cf.majority ≤ cf.acks || cf.steppedDown || cf.sent = some cf.finished
  | .finish k => s.reads[k]?.any fun rd => match rd.state with
      | .applying readIdx => readIdx ≤ (s.node rd.node).lastApplied
      | _ => false

/-- `replicateTo` would read the log beyond its end: a run-time panic, which ends the process. -/
def panics (s : ClusterState σ) : Action → Bool
  | .replicate j => s.spawned[j]?.any fun p =>
      (s.node p.1).role = .leader && (s.node p.1).log.baseIndex < (s.node p.1).nextIndexOf p.2 &&
        (s.node p.1).log.lastIndex + 1 < (s.node p.1).nextIndexOf p.2
  | _ => false

/-- The goroutines of `r` are gone, and nobody answers for it. -/
def kill (s : ClusterState σ) (r : String) : ClusterState σ :=
  { s with
    calls := s.calls.map fun c => if c.caller = r then { c with waiting := false } else c
    campaigns := s.campaigns.filter (· ≠ r)
    elections := s.elections.map fun el =>
      if el.node = r then { el with promoting := false } else el
    broadcasts := s.broadcasts.filter (· ≠ r)
    spawned := s.spawned.filter fun p => p.1 ≠ r
    lagging := s.lagging.filter fun p => p.1 ≠ r
    resigning := s.resigning.filter (· ≠ r)
    confirms := s.confirms.map fun cf =>
      if cf.node = r then { cf with sent := some (cf.sent.getD 0) } else cf
    reads := s.reads.map fun rd => match rd.state with
      | .done _ => rd
      | _ => if rd.node = r then { rd with state := .failed } else rd
    proposals := s.proposals.map fun p => if p.node = r then { p with waiting := false } else p }

/-- The actor's next durable writes end as the label says. -/
def arm (s : ClusterState σ) (l : Label) : ClusterState σ :=
  { s with node := fun q =>
      if q = s.actor l.action then { s.node q with writes := l.writes, saves := l.saves }
      else s.node q }

def reopened (E : Env σ) (K : Cluster σ) (s : ClusterState σ) (l : Label) : Option (Node σ) :=
  let r := s.actor l.action
  Node.openRaftNode E (K.boot r) (K.bound r) (((s.arm l).perform E K l.action).node r)

/-- A step.  Of a step cut short only the actor's durable writes remain. -/
def act (E : Env σ) (K : Cluster σ) (s : ClusterState σ) (l : Label) : ClusterState σ :=
  if l.crash then
    match s.reopened E K l with
    | some n => (s.kill (s.actor l.action)).setNode (s.actor l.action) n
    | none => s
  else (s.arm l).perform E K l.action

/-- A step that can happen; a server whose recovery fails stays down. -/
def Enabled (E : Env σ) (K : Cluster σ) (s : ClusterState σ) (l : Label) : Prop :=
  s.actor l.action ∈ K.servers ∧ s.possible l.action = true ∧
    (l.crash = true ∧ (s.reopened E K l).isSome = true ∨
      l.crash = false ∧ s.panics l.action = false)

instance (E : Env σ) (K : Cluster σ) (s : ClusterState σ) (l : Label) :
    Decidable (s.Enabled E K l) :=
  inferInstanceAs (Decidable (_ ∧ _))

def machine (E : Env σ) (K : Cluster σ) : Machine (ClusterState σ) Label where
  enabled := fun s l => s.Enabled E K l
  act := fun s l => s.act E K l

end ClusterState

end Cachey.Raft
