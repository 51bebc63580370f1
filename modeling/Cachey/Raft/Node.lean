/-
# A Raft node

The state of `raft.Node` and what each critical section of the source does with it: one
definition per function, under the source's name, each the effect of the code between taking the
node's lock and releasing it.

* **Outside.**  The state machine and the JSON encodings are parameters (`Env`).  A durable write
  ends as the environment decides: `writes` lists the outcomes of log-store appends and `saves`
  those of snapshot and meta saves, both consumed front to back; a missing outcome is a success.
* **Durable state.**  `wal`, `snapshot` and `savedMeta` are what the three stores hold.
* **Journals.**  `applied` lists every (index, entry) that `applyCommittedLocked` passed, no-ops
  included; `truncated` every index at which `HandleAppendEntries` cut the log, with the commit
  index before the cut.  Both newest first; no function reads them.
* **Timers and observers** (`electionReset`, `onRole`) have no effect on the state and are left
  out, as are the background loops' clocks: a timer may fire whenever its loop would look at it.
-/
import Cachey.Raft.Log

namespace Cachey.Raft

open Wal (Record WriteOutcome)

/-! ## 1. Data -/

/-- `Role`. -/
inductive Role where
  | follower
  | candidate
  | leader
deriving DecidableEq, Repr

/-- `Snapshot`. -/
structure Snapshot where
  lastIncludedIndex : ℕ
  lastIncludedTerm : ℕ
  data : Bytes
deriving DecidableEq

/-- `CommittedMeta`. -/
structure CommittedMeta where
  voters : List String
  addrs : GoMap String String
  index : ℕ
deriving DecidableEq

structure RequestVote where
  term : ℕ
  candidateID : String
  lastLogIndex : ℕ
  lastLogTerm : ℕ
deriving DecidableEq

structure RequestVoteReply where
  term : ℕ
  voteGranted : Bool := false
deriving DecidableEq

structure AppendEntries where
  term : ℕ
  leaderID : String
  prevLogIndex : ℕ
  prevLogTerm : ℕ
  entries : List Entry := []
  leaderCommit : ℕ
deriving DecidableEq

structure AppendEntriesReply where
  term : ℕ
  success : Bool := false
deriving DecidableEq

structure InstallSnapshot where
  term : ℕ
  leaderID : String
  lastIncludedIndex : ℕ
  lastIncludedTerm : ℕ
  data : Bytes
deriving DecidableEq

structure InstallSnapshotReply where
  term : ℕ
deriving DecidableEq

/-- Why a proposal was refused. -/
inductive Error where
  | notLeader
  | alreadyMember (id : String)
  | notMember (id : String)
  | notPersisted
deriving DecidableEq

/-- What the node calls: the state machine behind `applyFn`, `takeSnapshotFn` and
`applySnapshotFn`, and the JSON codecs of commands and configurations. -/
structure Env (σ : Type) where
  apply : σ → Entry → σ
  take : σ → Option Bytes
  install : σ → Bytes → Option σ
  decode : Bytes → Option Record
  encode : Record → Bytes
  decodeConfig : Bytes → Option Configuration
  encodeConfig : Configuration → Bytes

/-- An environment whose state machine keeps nothing: the one of the runs on fixed inputs. -/
def plainEnv : Env Unit where
  apply := fun _ _ => ()
  take := fun _ => some []
  install := fun _ _ => some ()
  decode := fun _ => some { op := .put }
  encode := fun _ => []
  decodeConfig := fun _ => none
  encodeConfig := fun _ => []

/-- `Node`. -/
structure Node (σ : Type) where
  id : String
  peers : List String
  role : Role
  currentTerm : ℕ
  votedFor : String
  log : Log
  commitIndex : ℕ
  lastApplied : ℕ
  leaderID : String
  noopIndex : ℕ
  nextIndex : GoMap String ℕ
  matchIndex : GoMap String ℕ
  joining : List String
  pendingStepDown : Bool
  removed : Bool
  snapshotThreshold : ℕ
  logStore : Bool
  snapshotStore : Bool
  metaStore : Bool
  addrs : GoMap String String
  fsm : σ
  wal : List Record
  snapshot : Option Snapshot
  savedMeta : Option CommittedMeta
  writes : List WriteOutcome
  saves : List Bool
  applied : List (ℕ × Entry)
  truncated : List (ℕ × ℕ)

/-- `NewNode` with the given identity, peers and compaction threshold (0 stands for the default),
and the stores that were set. -/
def newNode {σ : Type} (id : String) (peers : List String) (threshold : ℕ) (fsm : σ)
    (logStore snapshotStore metaStore : Bool) : Node σ where
  id := id
  peers := peers
  role := .follower
  currentTerm := 0
  votedFor := ""
  log := Log.new
  commitIndex := 0
  lastApplied := 0
  leaderID := ""
  noopIndex := 0
  nextIndex := ∅
  matchIndex := ∅
  joining := []
  pendingStepDown := false
  removed := false
  snapshotThreshold := if threshold = 0 then 2000 else threshold
  logStore := logStore
  snapshotStore := snapshotStore
  metaStore := metaStore
  addrs := ∅
  fsm := fsm
  wal := []
  snapshot := none
  savedMeta := none
  writes := []
  saves := []
  applied := []
  truncated := []

namespace Node

variable {σ : Type}

/-! ## 2. Membership and durable writes -/

def isVoter (n : Node σ) (id : String) : Bool := id ∈ n.peers

/-- The voting configuration: the peers, and this node unless it was removed. -/
def voters (n : Node σ) : List String := if n.removed then n.peers else n.id :: n.peers

/-- `majorityLocked`: peers leave this node out. -/
def majorityLocked (n : Node σ) : ℕ := (n.peers.length + 1) / 2 + 1

/-- `replicateSetLocked`: the voters and the joining members, each once. -/
def replicateSetLocked (n : Node σ) : List String := (n.peers ++ n.joining).dedup

/-- A missing key reads as zero. -/
def nextIndexOf (n : Node σ) (peer : String) : ℕ := (n.nextIndex.lookup peer).getD 0

def matchIndexOf (n : Node σ) (peer : String) : ℕ := (n.matchIndex.lookup peer).getD 0

/-- The record `walLogStore.AppendEntry` writes for an entry; a command that is no record cannot
be written. -/
def record (E : Env σ) (idx : ℕ) (e : Entry) : Option Record :=
  match e.config, e.command with
  | some cfg, _ =>
    some { op := .config, config := E.encodeConfig cfg, term := e.term, raftIndex := idx }
  | none, some cmd => (E.decode cmd).map fun rec => { rec with term := e.term, raftIndex := idx }
  | none, none => some { op := .noop, term := e.term, raftIndex := idx }

/-- `persistEntryLocked`: whether the write was acknowledged. -/
def persistEntryLocked (E : Env σ) (idx : ℕ) (e : Entry) (n : Node σ) : Node σ × Bool :=
  if ¬ n.logStore then (n, true)
  else match record E idx e with
    | none => (n, false)
    | some rec =>
      let rest := { n with writes := n.writes.tail }
      match n.writes.headD .ok with
      | .ok => ({ rest with wal := n.wal ++ [rec] }, true)
      | .lost => (rest, false)
      | .late => ({ rest with wal := n.wal ++ [rec] }, false)

/-- `snapshotStore.Save`. -/
def saveSnapshot (s : Snapshot) (n : Node σ) : Node σ × Bool :=
  let rest := { n with saves := n.saves.tail }
  if n.saves.headD true then ({ rest with snapshot := some s }, true) else (rest, false)

/-- `metaStore.Save`. -/
def saveMeta (m : CommittedMeta) (n : Node σ) : Node σ :=
  let rest := { n with saves := n.saves.tail }
  if n.saves.headD true then { rest with savedMeta := some m } else rest

/-- `RegisterPeer`, for each address that is known. -/
def registerPeers (addrs : GoMap String String) (n : Node σ) : Node σ :=
  let known := addrs.entries.foldl (fun m a => if a.2 = "" then m else m.insert a.1 a.2) n.addrs
  { n with addrs := known }

/-! ## 3. Applying -/

def maybeCompactLocked (E : Env σ) (n : Node σ) : Node σ :=
  if n.snapshotThreshold = 0 then n
  else if n.log.lastIndex - n.log.baseIndex < n.snapshotThreshold then n
  else
    let idx := n.lastApplied
    if idx ≤ n.log.baseIndex then n
    else
      let term := n.log.termAt idx
      match E.take n.fsm with
      | none => n
      | some data =>
        if n.snapshotStore then
          let (n, ok) := n.saveSnapshot
            { lastIncludedIndex := idx, lastIncludedTerm := term, data := data }
          if ok then { n with log := n.log.compact idx term } else n
        else { n with log := n.log.compact idx term }

/-- The bookkeeping of a leader that adopts a configuration: new voters get replication state,
voters that left lose it. -/
def reconcile (cfg : Configuration) (oldPeers : List String) (n : Node σ) : Node σ :=
  let fresh := cfg.voters.filter fun id => id ∉ n.nextIndex
  let n := { n with
    nextIndex := fresh.foldl (fun m id => m.insert id (n.log.lastIndex + 1)) n.nextIndex
    matchIndex := fresh.foldl (fun m id => m.insert id 0) n.matchIndex }
  let gone := oldPeers.filter fun id => ¬ n.isVoter id
  { n with
    nextIndex := gone.foldl (fun m id => m.erase id) n.nextIndex
    matchIndex := gone.foldl (fun m id => m.erase id) n.matchIndex }

def applyConfigLocked (cfg : Configuration) (idx : ℕ) (n : Node σ) : Node σ :=
  let n := n.registerPeers cfg.addrs
  let oldPeers := n.peers
  let n := { n with
    peers := cfg.voters.filter fun id => id ≠ n.id
    removed := n.id ∉ cfg.voters }
  let n := if n.role = .leader then n.reconcile cfg oldPeers else n
  let dropped := n.joining.filter fun id => ¬ n.isVoter id
  let n := { n with
    joining := []
    nextIndex := dropped.foldl (fun m id => m.erase id) n.nextIndex
    matchIndex := dropped.foldl (fun m id => m.erase id) n.matchIndex }
  let n := if n.role = .leader ∧ n.removed then { n with pendingStepDown := true } else n
  if n.metaStore then n.saveMeta { voters := cfg.voters, addrs := cfg.addrs, index := idx } else n

/-- One turn of `applyCommittedLocked`. -/
def applyNext (E : Env σ) (n : Node σ) : Node σ :=
  let idx := n.lastApplied + 1
  let e := n.log.entryAt idx
  let n := { n with lastApplied := idx, applied := (idx, e) :: n.applied }
  match e.config, e.command with
  | some cfg, _ => n.applyConfigLocked cfg idx
  | none, some _ => { n with fsm := E.apply n.fsm e }.maybeCompactLocked E
  | none, none => n

/-- The loop of `applyCommittedLocked`. -/
def applyLoop (E : Env σ) : (turns : ℕ) → Node σ → Node σ
  | 0, n => n
  | turns + 1, n => applyLoop E turns (n.applyNext E)

/-- `applyCommittedLocked`: the loop runs while `lastApplied < commitIndex`. -/
def applyCommittedLocked (E : Env σ) (n : Node σ) : Node σ :=
  applyLoop E (n.commitIndex - n.lastApplied) n

/-- The servers counted for an index: this node and every key of `matchIndex` that reached it. -/
def countAt (n : Node σ) (idx : ℕ) : ℕ :=
  1 + (n.matchIndex.values.filter fun m => m ≥ idx).length

/-- The loop of `updateCommitIndexLocked`, from index `idx` on. -/
def commitLoop : (turns : ℕ) → (idx : ℕ) → Node σ → Node σ
  | 0, _, n => n
  | turns + 1, idx, n =>
    if n.log.termAt idx ≠ n.currentTerm then commitLoop turns (idx + 1) n
    else if n.countAt idx ≥ n.majorityLocked then
      commitLoop turns (idx + 1) { n with commitIndex := idx }
    else n

def updateCommitIndexLocked (E : Env σ) (n : Node σ) : Node σ :=
  (commitLoop (n.log.lastIndex - n.commitIndex) (n.commitIndex + 1) n).applyCommittedLocked E

/-! ## 4. Elections -/

def stepDownLocked (term : ℕ) (n : Node σ) : Node σ :=
  { n with currentTerm := term, role := .follower, votedFor := "", leaderID := "", noopIndex := 0 }

def becomeCandidate (n : Node σ) : Node σ × Bool :=
  if n.role = .leader ∨ n.removed then (n, false)
  else
    ({ n with
        role := .candidate
        currentTerm := n.currentTerm + 1
        votedFor := n.id
        leaderID := "" }, true)

/-- The arguments `startElection` sends to every peer: the term is read again. -/
def voteRequest (n : Node σ) : RequestVote where
  term := n.currentTerm
  candidateID := n.id
  lastLogIndex := n.log.lastIndex
  lastLogTerm := n.log.lastTerm

/-- What `startElection` does with a reply, up to counting it: whether the vote counts. -/
def onVoteReply (term : ℕ) (reply : RequestVoteReply) (n : Node σ) : Node σ × Bool :=
  if reply.term > n.currentTerm then (n.stepDownLocked reply.term, false)
  else (n, n.role = .candidate ∧ n.currentTerm = term ∧ reply.voteGranted)

/-- The new leader's state: fresh replication state for the peers, and a no-op at `noopIdx`. -/
def assumeLeadership (noopIdx term : ℕ) (n : Node σ) : Node σ :=
  { n with
    role := .leader
    leaderID := n.id
    noopIndex := noopIdx
    nextIndex := n.peers.foldl (fun m p => m.insert p (n.log.lastIndex + 1)) n.nextIndex
    matchIndex := n.peers.foldl (fun m p => m.insert p 0) n.matchIndex
    log := n.log.append { term := term } }

/-- `tryBecomeLeader` of a candidate, up to `updateCommitIndexLocked`, and whether it gets there. -/
def takeOffice (E : Env σ) (term : ℕ) (n : Node σ) : Node σ × Bool :=
  if n.role ≠ .candidate ∨ n.currentTerm ≠ term then (n, false)
  else
    let noopIdx := n.log.lastIndex + 1
    match n.persistEntryLocked E noopIdx { term := term } with
    | (n, false) => (n, false)
    | (n, true) => (n.assumeLeadership noopIdx term, true)

def tryBecomeLeader (E : Env σ) (term : ℕ) (n : Node σ) : Node σ × Bool :=
  if n.role = .leader ∧ n.currentTerm = term then (n, true)
  else match n.takeOffice E term with
    | (n, false) => (n, false)
    | (n, true) => (n.updateCommitIndexLocked E, true)

/-- The candidate's log is at least as good as this node's. -/
def upToDate (n : Node σ) (args : RequestVote) : Bool :=
  args.lastLogTerm > n.log.lastTerm ∨
    (args.lastLogTerm = n.log.lastTerm ∧ args.lastLogIndex ≥ n.log.lastIndex)

/-- `HandleRequestVote`.  The reply carries the term from before the update. -/
def handleRequestVote (args : RequestVote) (n : Node σ) : Node σ × RequestVoteReply :=
  let reply : RequestVoteReply := { term := n.currentTerm }
  if args.term < n.currentTerm then (n, reply)
  else
    let n := if args.term > n.currentTerm then
        { n with currentTerm := args.term, votedFor := "", role := .follower, leaderID := "" }
      else n
    if (n.votedFor = "" ∨ n.votedFor = args.candidateID) ∧ n.upToDate args then
      ({ n with votedFor := args.candidateID }, { reply with voteGranted := true })
    else (n, reply)

/-! ## 5. Replication: the follower -/

/-- The first loop of `HandleAppendEntries`: what is new is made durable. -/
def persistLoop (E : Env σ) : (idx : ℕ) → List Entry → Node σ → Node σ × Bool
  | _, [], n => (n, true)
  | idx, e :: es, n =>
    if idx ≤ n.log.lastIndex ∧ n.log.termAt idx = e.term then persistLoop E (idx + 1) es n
    else match n.persistEntryLocked E idx e with
      | (n, true) => persistLoop E (idx + 1) es n
      | (n, false) => (n, false)

/-- A conflicting entry replaces the tail and rolls the apply position back below it. -/
def overwrite (idx : ℕ) (e : Entry) (n : Node σ) : Node σ :=
  let n := { n with
    log := (n.log.truncate idx).append e
    truncated := (idx, n.commitIndex) :: n.truncated }
  let n := if idx ≤ n.lastApplied then { n with lastApplied := idx - 1 } else n
  if n.commitIndex ≥ idx then { n with commitIndex := idx - 1 } else n

/-- The second loop of `HandleAppendEntries`. -/
def appendLoop : (idx : ℕ) → List Entry → Node σ → Node σ
  | _, [], n => n
  | idx, e :: es, n =>
    let n :=
      if idx ≤ n.log.lastIndex then
        if n.log.termAt idx ≠ e.term then n.overwrite idx e else n
      else { n with log := n.log.append e }
    appendLoop (idx + 1) es n

/-- The end of `HandleAppendEntries`, when everything is durable. -/
def takeEntries (E : Env σ) (args : AppendEntries) (n : Node σ) : Node σ :=
  let n := n.appendLoop (args.prevLogIndex + 1) args.entries
  let n := if args.leaderCommit > n.commitIndex then
      { n with commitIndex := min args.leaderCommit n.log.lastIndex }
    else n
  n.applyCommittedLocked E

/-- Adopting the sender of a current AppendEntries or InstallSnapshot as leader. -/
def followLeader (term : ℕ) (leaderID : String) (n : Node σ) : Node σ :=
  let n := if term > n.currentTerm then { n with currentTerm := term, votedFor := "" } else n
  { n with role := .follower, leaderID := leaderID }

def handleAppendEntries (E : Env σ) (args : AppendEntries) (n : Node σ) :
    Node σ × AppendEntriesReply :=
  let reply : AppendEntriesReply := { term := n.currentTerm }
  if args.term < n.currentTerm then (n, reply)
  else
    let n := n.followLeader args.term args.leaderID
    if args.prevLogIndex > n.log.lastIndex then (n, reply)
    else if args.prevLogIndex < n.log.baseIndex then (n, reply)
    else if args.prevLogIndex > 0 ∧ n.log.termAt args.prevLogIndex ≠ args.prevLogTerm then
      (n, reply)
    else match n.persistLoop E (args.prevLogIndex + 1) args.entries with
      | (n, false) => (n, reply)
      | (n, true) => (n.takeEntries E args, { reply with success := true })

def handleInstallSnapshot (E : Env σ) (args : InstallSnapshot) (n : Node σ) :
    Node σ × InstallSnapshotReply :=
  let reply : InstallSnapshotReply := { term := n.currentTerm }
  if args.term < n.currentTerm then (n, reply)
  else
    let n := n.followLeader args.term args.leaderID
    if args.lastIncludedIndex ≤ n.lastApplied then (n, { term := n.currentTerm })
    else match E.install n.fsm args.data with
      | none => (n, reply)
      | some fsm =>
        let n := { n with fsm := fsm }
        -- a failed save is only logged
        let n := if n.snapshotStore then (n.saveSnapshot
            { lastIncludedIndex := args.lastIncludedIndex
              lastIncludedTerm := args.lastIncludedTerm
              data := args.data }).1
          else n
        let log :=
          if args.lastIncludedIndex > n.log.lastIndex ∨
              n.log.termAt args.lastIncludedIndex ≠ args.lastIncludedTerm then
            n.log.reset args.lastIncludedIndex args.lastIncludedTerm
          else n.log.compact args.lastIncludedIndex args.lastIncludedTerm
        let n := { n with
          log := log
          commitIndex := max n.commitIndex args.lastIncludedIndex
          lastApplied := args.lastIncludedIndex }
        (n, { term := n.currentTerm })

/-! ## 6. Replication: the leader -/

/-- `appendEntryLocked` up to `updateCommitIndexLocked`, and whether it gets there. -/
def addEntry (E : Env σ) (e : Entry) (n : Node σ) : Node σ × Bool :=
  match n.persistEntryLocked E (n.log.lastIndex + 1) e with
  | (n, false) => (n, false)
  | (n, true) => ({ n with log := n.log.append e }, true)

/-- `appendEntryLocked`: the index of the new entry, if it could be made durable. -/
def appendEntryLocked (E : Env σ) (e : Entry) (n : Node σ) : Node σ × Option ℕ :=
  let idx := n.log.lastIndex + 1
  match n.addEntry E e with
  | (n, false) => (n, none)
  | (n, true) => (n.updateCommitIndexLocked E, some idx)

/-- The end of `Propose`, `AddServer` and `RemoveServer`, which append an entry or refuse. -/
def submit (E : Env σ) (n : Node σ) : Except Error (Node σ × Entry) → Node σ × Except Error ℕ
  | .error err => (n, .error err)
  | .ok (n, e) =>
    match n.appendEntryLocked E e with
    | (n, some idx) => (n, .ok idx)
    | (n, none) => (n, .error .notPersisted)

/-- The entry of `Propose`; `none` is Go's nil slice. -/
def proposed (command : Option Bytes) (n : Node σ) : Except Error (Node σ × Entry) :=
  if n.role ≠ .leader then .error .notLeader
  else .ok (n, { term := n.currentTerm, command := command })

/-- The critical section of `Propose`. -/
def propose (E : Env σ) (command : Option Bytes) (n : Node σ) : Node σ × Except Error ℕ :=
  n.submit E (n.proposed command)

/-- What `replicateTo` does first. -/
inductive Replication where
  | idle
  | snapshot
  | append (args : AppendEntries)
deriving DecidableEq

/-- The first critical section of `replicateTo`.  `slice` does not copy: the entries here are those the
log has when the lock is released, and `Sharing` says what the transport reads afterwards. -/
def replicateTo (peer : String) (n : Node σ) : Replication :=
  if n.role ≠ .leader then .idle
  else
    let nextIdx := n.nextIndexOf peer
    if nextIdx ≤ n.log.baseIndex then .snapshot
    else
      let prevLogIndex := nextIdx - 1
      .append
        { term := n.currentTerm
          leaderID := n.id
          prevLogIndex := prevLogIndex
          prevLogTerm := n.log.termAt prevLogIndex
          entries := n.log.slice nextIdx
          leaderCommit := n.commitIndex }

/-- The leader has learnt that `peer` holds the log up to `idx`. -/
def setMatch (peer : String) (idx : ℕ) (n : Node σ) : Node σ :=
  { n with
    matchIndex := n.matchIndex.insert peer idx
    nextIndex := n.nextIndex.insert peer (idx + 1) }

/-- `updateCommitIndexLocked`, if the function gets there. -/
def commitIf (E : Env σ) : Node σ × Bool → Node σ
  | (n, true) => n.updateCommitIndexLocked E
  | (n, false) => n

/-- What the reply to `args` tells `replicateTo`, and whether `updateCommitIndexLocked` follows. -/
def hearAppend (peer : String) (args : AppendEntries) (reply : AppendEntriesReply) (n : Node σ) :
    Node σ × Bool :=
  if reply.term > n.currentTerm then (n.stepDownLocked reply.term, false)
  else if n.role ≠ .leader ∨ reply.term < n.currentTerm then (n, false)
  else if reply.success then
    let newMatch := args.prevLogIndex + args.entries.length
    (if newMatch > n.matchIndexOf peer then n.setMatch peer newMatch else n, true)
  else if n.nextIndexOf peer > 1 then
    ({ n with nextIndex := n.nextIndex.insert peer (n.nextIndexOf peer - 1) }, false)
  else (n, false)

/-- What `replicateTo` does with the reply to `args`. -/
def onAppendReply (E : Env σ) (peer : String) (args : AppendEntries) (reply : AppendEntriesReply)
    (n : Node σ) : Node σ :=
  commitIf E (n.hearAppend peer args reply)

/-- The first critical section of `sendSnapshot`: the stored snapshot, if there is one. -/
def sendSnapshot (n : Node σ) : Option InstallSnapshot :=
  if n.role ≠ .leader ∨ ¬ n.snapshotStore then none
  else n.snapshot.map fun snap =>
    { term := n.currentTerm
      leaderID := n.id
      lastIncludedIndex := snap.lastIncludedIndex
      lastIncludedTerm := snap.lastIncludedTerm
      data := snap.data }

/-- What the reply to `args` tells `sendSnapshot`, and whether `updateCommitIndexLocked` follows. -/
def hearSnapshot (peer : String) (args : InstallSnapshot) (reply : InstallSnapshotReply)
    (n : Node σ) : Node σ × Bool :=
  if reply.term > n.currentTerm then (n.stepDownLocked reply.term, false)
  else if n.role ≠ .leader ∨ reply.term < n.currentTerm then (n, false)
  else
    (if args.lastIncludedIndex + 1 > n.matchIndexOf peer then
      n.setMatch peer args.lastIncludedIndex
    else n, true)

/-- What `sendSnapshot` does with the reply to `args`. -/
def onSnapshotReply (E : Env σ) (peer : String) (args : InstallSnapshot)
    (reply : InstallSnapshotReply) (n : Node σ) : Node σ :=
  commitIf E (n.hearSnapshot peer args reply)

/-- The heartbeat of `confirmLeadership`: it carries no entries. -/
def heartbeat (n : Node σ) : Option AppendEntries :=
  if n.role ≠ .leader then none
  else some
    { term := n.currentTerm
      leaderID := n.id
      prevLogIndex := n.log.lastIndex
      prevLogTerm := n.log.lastTerm
      leaderCommit := n.commitIndex }

/-- What `confirmLeadership` does to the node on a reply, and whether the term was higher. -/
def onHeartbeatReply (reply : AppendEntriesReply) (n : Node σ) : Node σ × Bool :=
  if reply.term > n.currentTerm then (n.stepDownLocked reply.term, true) else (n, false)

/-! ## 7. Membership -/

/-- The transport addresses `AddServer` ships: the newcomer's and those of all voters. -/
def memberAddrs (voters : List String) (id addr : String) (n : Node σ) : GoMap String String :=
  let own : GoMap String String := if addr ≠ "" then AList.insert id addr ∅ else ∅
  voters.foldl (fun m vid =>
    let a := (n.addrs.lookup vid).getD ""
    if a ≠ "" then m.insert vid a else m) own

/-- A newcomer that does not vote yet: replication to it starts from the beginning. -/
def enlist (id addr : String) (n : Node σ) : Node σ :=
  { n with
    addrs := if addr ≠ "" then n.addrs.insert id addr else n.addrs
    joining := n.joining ++ [id]
    nextIndex := n.nextIndex.insert id 1
    matchIndex := n.matchIndex.insert id 0 }

/-- The entry of `AddServer`, and the newcomer enlisted. -/
def addition (id addr : String) (n : Node σ) : Except Error (Node σ × Entry) :=
  if n.role ≠ .leader then .error .notLeader
  else if n.isVoter id ∨ id ∈ n.joining then .error (.alreadyMember id)
  else
    let n := n.enlist id addr
    let voters := n.id :: n.peers ++ [id]
    let cfg : Configuration := { voters := voters, addrs := n.memberAddrs voters id addr }
    .ok (n, { term := n.currentTerm, config := some cfg })

/-- The critical section of `AddServer`. -/
def addServer (E : Env σ) (id addr : String) (n : Node σ) : Node σ × Except Error ℕ :=
  n.submit E (n.addition id addr)

/-- The entry of `RemoveServer`. -/
def removal (id : String) (n : Node σ) : Except Error (Node σ × Entry) :=
  if n.role ≠ .leader then .error .notLeader
  else if id ≠ n.id ∧ ¬ n.isVoter id then .error (.notMember id)
  else
    let voters := (if id ≠ n.id then [n.id] else []) ++ n.peers.filter (· ≠ id)
    .ok (n, { term := n.currentTerm, config := some { voters := voters } })

/-- The critical section of `RemoveServer`. -/
def removeServer (E : Env σ) (id : String) (n : Node σ) : Node σ × Except Error ℕ :=
  n.submit E (n.removal id)

/-- The end of `heartbeatLoop`'s deferred step-down, after its last heartbeat. -/
def resign (n : Node σ) : Node σ :=
  { n with role := .follower, leaderID := "", noopIndex := 0, pendingStepDown := false }

section Drafts

variable {n : Node σ} {x : Node σ × Entry} {id : String}

theorem proposed_ok {command : Option Bytes} (h : n.proposed command = .ok x) :
    n.role = .leader ∧ x = (n, { term := n.currentTerm, command := command }) := by
  unfold proposed at h
  split at h
  · cases h
  next hlead =>
  cases h
  exact ⟨not_not.mp hlead, rfl⟩

/-- `AddServer` drafts its entry on a node that has the newcomer enlisted already. -/
theorem addition_ok {addr : String} (h : n.addition id addr = .ok x) :
    n.role = .leader ∧ ∃ addrs, x = (n.enlist id addr, {
      term := n.currentTerm
      config := some { voters := n.id :: n.peers ++ [id], addrs := addrs } }) := by
  unfold addition at h
  split at h
  · cases h
  next hlead =>
  split at h
  · cases h
  cases h
  exact ⟨not_not.mp hlead, _, rfl⟩

theorem removal_ok (h : n.removal id = .ok x) :
    n.role = .leader ∧ x = (n, {
      term := n.currentTerm
      config := some {
        voters := (if id ≠ n.id then [n.id] else []) ++ n.peers.filter (· ≠ id) } }) := by
  unfold removal at h
  split at h
  · cases h
  next hlead =>
  split at h
  · cases h
  cases h
  exact ⟨not_not.mp hlead, rfl⟩

end Drafts

end Node

end Cachey.Raft
