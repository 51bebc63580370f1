/-
# The HotStuff handlers

The entry points of a replica: `Propose` and `HandleProposal`, `HandleVote` (`node.go`), the
pacemaker `StartViewChange`, `HandleViewChange` and the block fetch of `viewchange.go`, and the
range sync of `sync.go`.  Each is one critical section of the mutex, followed by the sends the
source makes after unlocking.

What a handler finds outside the state is an argument, `Ctx`: the clock (in nanoseconds, read
by the fetch and sync deadlines) and the orders in which its iterations over `vcs[view]` run.
The outcomes of its durable writes stand in the state (`writes`).

A block that arrives can unblock buffered proposals.  The source handles each of these by a
further `HandleProposal` call with the mutex released in between, so a handler here RETURNS
them (`kids`): handling them is delivering them again, and other calls may come between.
-/
import Cachey.HotStuff.Replica

namespace Cachey.HotStuff

/-- What one call finds outside the replica's state. -/
structure Ctx where
  now : Nat
  /-- the order in which `proposeLocked` and `maybeActivateLocked` visit the view changes -/
  scan : Iteration ViewChange
  /-- the order in which `vcReporterLocked` visits them -/
  rescan : Iteration ViewChange

namespace Replica

/-! ## 1. Inserting blocks -/

/-- One parked block whose parent has arrived goes to the worklist; the defensive branch of the
source parks it again under its own parent. -/
def unpark (acc : Replica × List Block) (pb : Block) : Replica × List Block :=
  if pb.parent ∈ acc.1.blocks then (acc.1, acc.2 ++ [pb])
  else ({ acc.1 with pendingBlocks := acc.1.pendingBlocks.push pb.parent pb }, acc.2)

/-- What `addBlockLocked` does with a block it inserts, up to the release of waiting blocks. -/
def insertBlock (E : Env) (cur : Block) (n : Replica) : Replica :=
  let n := { n with blocks := n.blocks.insert cur.id cur, fetches := n.fetches.erase cur.id }
  let n := n.persistRecordLocked (.block cur)
  let n := if cur.height > n.heightOf n.head then { n with head := cur.id } else n
  let n := match cur.justify with
    | none => n
    | some qc => n.onNewQCLocked E qc
  n.completeBaseLocked E cur.id

/-- The epoch gate of `addBlockLocked`: the claimed epoch is the derived one and its set is
derivable. -/
def epochGate (E : Env) (n : Replica) (b : Block) : Bool :=
  b.epoch = (n.epochAndSetOfLocked E b).1 && (n.epochAndSetOfLocked E b).2.isSome

/-- One turn of the worklist loop: the buffered proposals released and the parked blocks to
work on next, in the order they are pushed. -/
def addBlockTurn (E : Env) (cur : Block) (n : Replica) :
    Replica × List Proposal × List Block :=
  if cur.id ∈ n.blocks then (n, [], [])
  else if ¬ n.epochGate E cur then (n, [], [])
  else
    let n := n.insertBlock E cur
    let kids := (n.pending.lookup cur.id).getD []
    let parked := (n.pendingBlocks.lookup cur.id).getD []
    let n := { n with
      pending := n.pending.erase cur.id
      pendingBlocks := n.pendingBlocks.erase cur.id }
    let (n, work) := parked.foldl unpark (n, [])
    (n, kids, work)

/-- The worklist loop; the stack's top is the list's head. -/
def addBlockLoop (E : Env) : (fuel : Nat) → (work : List Block) → Replica → List Proposal →
    Replica × List Proposal
  | 0, _, n, kids => (n, kids)
  | _ + 1, [], n, kids => (n, kids)
  | fuel + 1, cur :: work, n, kids =>
    let (n, more, pushed) := n.addBlockTurn E cur
    addBlockLoop E fuel (pushed.reverse ++ work) n (kids ++ more)

/-- The number of parked blocks: what the worklist can still grow by. -/
def parkedCount (n : Replica) : Nat := (n.pendingBlocks.values.map List.length).sum

/-- `addBlockLocked`: insert `b` and every parked block it unblocks; returns the proposals
that can now be handled. -/
def addBlockLocked (E : Env) (b : Block) (n : Replica) : Replica × List Proposal :=
  addBlockLoop E (n.parkedCount + 1) [b] n []

/-! ## 2. Votes and proposals -/

/-- `voteForBlockLocked`: record one authenticated vote and fold the certificate when the
quorum is reached. -/
def voteForBlockLocked (E : Env) (v : Vote) (n : Replica) : Replica :=
  match n.blocks.lookup v.nodeID with
  | none => n
  | some blk =>
    match n.sets.lookup blk.epoch with
    | none => n
    | some set =>
      if ¬ set.has v.voter ∨ v.height ≠ blk.height then n
      else match set.publicKeys.lookup v.voter with
        | none => n
        | some pub =>
          if ¬ E.verify pub v.signable v.sig then n
          else
            let setVotes := (n.votes.lookup v.nodeID).getD ∅
            if v.voter ∈ setVotes then n
            else
              let setVotes : GoMap String Bytes := setVotes.insert v.voter v.sig
              let n := { n with votes := n.votes.insert v.nodeID setVotes }
              if setVotes.len < set.quorum ∨ v.nodeID ∈ n.qcFormed then n
              else
                { n with qcFormed := v.nodeID :: n.qcFormed }.onNewQCLocked E
                  { newQCEpoch blk.epoch v.nodeID blk.height with votes := setVotes }

/-- `HandleVote`: only the leader aggregates. -/
def handleVote (E : Env) (v : Vote) (n : Replica) : Replica :=
  if n.id = n.leader then n.voteForBlockLocked E v else n

/-- `highestBlockHeightLocked`: the height of the tallest block in the tree. -/
def highestBlockHeightLocked (n : Replica) : Nat :=
  n.blocks.values.foldl (fun maxH b => if b.height > maxH then b.height else maxH) 0

/-- The height `proposeLocked` gives the next block: above the head, one more after a view
change, and above every block of the tree. -/
def proposalHeight (n : Replica) : Nat :=
  let h := u64 (n.heightOf n.head + if n.freshBase then 2 else 1)
  if h ≤ n.highestBlockHeightLocked then u64 (n.highestBlockHeightLocked + 1) else h

/-- The block `proposeLocked` builds. -/
def nextBlock (n : Replica) (cmd : Bytes) : Block :=
  { view := n.view, height := n.proposalHeight, parent := n.head,
    id := blockID n.view n.proposalHeight n.head cmd, cmd := cmd, justify := some n.qcHigh,
    epoch := n.epoch }

/-- The view changes collected for `view`, by sender. -/
def vcsOf (n : Replica) (view : Nat) : GoMap String ViewChange := (n.vcs.lookup view).getD ∅

/-- `proposeLocked`: add the next block with the leader's own vote and sign the proposal. -/
def proposeLocked (E : Env) (C : Ctx) (cmd : Bytes) (n : Replica) :
    Replica × Proposal :=
  let b := n.nextBlock cmd
  let n := { n with freshBase := false, blocks := n.blocks.insert b.id b, head := b.id }
  let n := n.persistRecordLocked (.block b)
  let (n, sig) := n.sign E (.vote b.height b.id n.id)
  let n := n.voteForBlockLocked E { height := b.height, nodeID := b.id, voter := n.id, sig := sig }
  let vcs := if n.view > 0 then C.scan.order (n.vcsOf n.view).values else []
  let (n, psig) := n.sign E (.blockFrom b n.id vcs)
  (n, { block := b, sender := n.id, viewChanges := vcs, sig := psig })

/-- Messages handed to the transport, in order. -/
def sendAll (msgs : List (String × Message)) (n : Replica) : Replica :=
  msgs.foldl (fun n m => n.emit (.send m.1 m.2)) n

/-- The validators of the current epoch other than this replica. -/
def broadcastPeers (n : Replica) : List String :=
  match n.sets.lookup n.epoch with
  | none => []
  | some set => set.validators.filter (· ≠ n.id)

/-- The errors of `Propose`. -/
inductive ProposeError where
  | notLeader
  | busy
deriving DecidableEq, Repr

/-- `Propose`: build, vote for and broadcast the next block. -/
def propose (E : Env) (C : Ctx) (cmd : Bytes) (n : Replica) :
    Replica × Except ProposeError BlockID :=
  if n.id ≠ n.leader ∨ ¬ n.active then (n, .error .notLeader)
  else if n.qcHigh.nodeID ≠ n.head then (n, .error .busy)
  else
    let (n, p) := n.proposeLocked E C cmd
    (n.sendAll (n.broadcastPeers.map fun peer => (peer, .proposal p)), .ok p.block.id)

/-- The loop of `proposalViewCertValidLocked`: every view change is for `view` and the
certificate's epoch, from a member not seen before, and signed. -/
def viewCertLoop (E : Env) (set : ValidatorSet) (view e : Nat) :
    (seen : List String) → List ViewChange → Option (List String)
  | seen, [] => some seen
  | seen, vc :: rest =>
    if vc.view ≠ view ∨ vc.epoch ≠ e ∨ ¬ set.has vc.sender ∨ vc.sender ∈ seen ∨
        ¬ verifyInSet E set vc.sender vc.sig vc.signable then none
    else viewCertLoop E set view e (vc.sender :: seen) rest

/-- `proposalViewCertValidLocked`: a quorum of distinct signed view changes for `view`. -/
def proposalViewCertValidLocked (E : Env) (n : Replica) (view : Nat) (vcs : List ViewChange) :
    Bool :=
  match vcs with
  | [] => false
  | first :: _ =>
    match n.sets.lookup first.epoch with
    | none => false
    | some set =>
      if vcs.length < set.quorum then false
      else match viewCertLoop E set view first.epoch [] vcs with
        | none => false
        | some seen => set.quorum ≤ seen.length

/-! ## 3. Outstanding requests -/

/-- `fetchTTL`, `syncTTL`: two seconds. -/
def fetchTTL : Nat := 2000000000

def syncTTL : Nat := 2000000000

def pruneFetchThreshold : Nat := 1024

def maxSyncBlocks : Nat := 512

/-- Drop the entries of a map that a test condemns. -/
def prune {K V : Type} [DecidableEq K] (dead : V → Bool) (m : GoMap K V) : GoMap K V :=
  m.entries.foldl (fun acc e => if dead e.2 then acc.erase e.1 else acc) m

def fetchInFlightLocked (n : Replica) (now : Nat) (id : BlockID) : Bool :=
  match n.fetches.lookup id with
  | none => false
  | some ts => now - ts < fetchTTL

def markFetchLocked (now : Nat) (id : BlockID) (n : Replica) : Replica :=
  let fetches := if n.fetches.len > pruneFetchThreshold
    then prune (fun ts => fetchTTL ≤ now - ts) n.fetches else n.fetches
  { n with fetches := fetches.insert id now }

def syncInFlightLocked (n : Replica) (now : Nat) (target : BlockID) : Bool :=
  n.syncReqs.values.any fun r => r.target = target && now < r.deadline

def markSyncLocked (now : Nat) (anchor target : BlockID) (peer : String) (n : Replica) :
    Replica × SyncRequest :=
  let reqs := if n.syncReqs.len > pruneFetchThreshold
    then prune (fun r => r.deadline < now) n.syncReqs else n.syncReqs
  let id := u64 (n.syncSeq + 1)
  let req : SyncRequest :=
    { id := id, anchor := anchor, target := target, peer := peer, deadline := now + syncTTL }
  ({ n with syncSeq := id, syncReqs := reqs.insert id req }, req)

/-! ## 4. Views -/

/-- `enterViewLockedEpoch`: advance to a strictly newer view; computing its leader can panic. -/
def enterViewLockedEpoch (view epoch : Nat) (n : Replica) : Replica :=
  if view ≤ n.view then n
  else match n.leaderOfEpoch epoch view with
    | none => { n with view := view }.crash
    | some l => { n with view := view, leader := l, active := false }

def enterViewLocked (view : Nat) (n : Replica) : Replica := n.enterViewLockedEpoch view n.epoch

/-- `addVC`: store a member's view change when this replica leads the target view. -/
def addVC (vc : ViewChange) (n : Replica) : Replica :=
  match n.sets.lookup n.epoch with
  | none => n
  | some set =>
    if ¬ set.has vc.sender then n
    else match n.leaderOfEpoch n.epoch vc.view with
      | none => n.crash
      | some l =>
        if n.id ≠ l then n
        else
          { n with vcs := n.vcs.insert vc.view ((n.vcsOf vc.view).insert vc.sender vc) }

/-- The choice of `maybeActivateLocked`: the highest genuine QC among `qcHigh` and the reported
ones, the first met on ties. -/
def highestReported (E : Env) (n : Replica) (vcs : List ViewChange) : QC :=
  vcs.foldl (fun high vc => match vc.highQC with
    | none => high
    | some qc => if n.qcValid E qc ∧ qc.height > high.height then qc else high) n.qcHigh

/-- `vcReporterLocked`: the first peer that reported this QC. -/
def vcReporterLocked (n : Replica) (C : Ctx) (high : QC) : String :=
  match (C.rescan.order (n.vcsOf n.view).values).find? fun vc => match vc.highQC with
    | none => false
    | some qc => qc.nodeID = high.nodeID && qc.height = high.height with
  | none => ""
  | some vc => vc.sender

/-- `adoptBaseLocked`: adopt `high` as the base of the view, fetching its block first when it
is not in the tree. -/
def adoptBaseLocked (E : Env) (C : Ctx) (high : QC) (n : Replica) :
    Replica × Option Fetch :=
  if n.id ≠ n.leader then (n, none)
  else if high.height > n.qcHigh.height then
    if high.nodeID ∉ n.blocks then
      let reporter := n.vcReporterLocked C high
      if reporter = "" then (n.activateWithBaseLocked n.qcHigh, none)
      else
        let n := { n with wantBase := some high }
        if n.fetchInFlightLocked C.now high.nodeID then (n, none)
        else (n.markFetchLocked C.now high.nodeID,
          some { blockID := high.nodeID, dest := reporter, sender := "" })
    else
      let n := n.adoptQC E high
      (n.activateWithBaseLocked n.qcHigh, none)
  else (n.activateWithBaseLocked n.qcHigh, none)

/-- `maybeActivateLocked`: with a quorum of view changes for `view`, join it and adopt the
highest reported QC. -/
def maybeActivateLocked (E : Env) (C : Ctx) (view : Nat) (n : Replica) :
    Replica × Option Fetch :=
  match n.sets.lookup n.epoch with
  | none => (n, none)
  | some set =>
    match n.leaderOfEpoch n.epoch view with
    | none => (n.crash, none)
    | some l =>
      if n.id ≠ l then (n, none)
      else
        let setV := n.vcsOf view
        if setV.len < set.quorum then (n, none)
        else
          let n := if view > n.view then n.enterViewLocked view else n
          if view ≠ n.view then (n, none)
          else
            n.adoptBaseLocked E C (n.highestReported E (C.scan.order setV.values))

def sendFetch (f : Option Fetch) (n : Replica) : Replica :=
  match f with
  | none => n
  | some f =>
    if f.dest = "" then n
    else n.emit (.send f.dest (.fetch { blockID := f.blockID, dest := "", sender := n.id }))

/-- `StartViewChange`: announce the current view, or suspect it and announce the next one. -/
def startViewChange (E : Env) (C : Ctx) (n : Replica) : Replica :=
  let again := n.view = 0 ∨ n.view ∈ n.vcSent
  let target := if again then u64 (n.view + 1) else n.view
  let n := if again then n.enterViewLocked target else n
  if n.panicked then n
  else if target = 0 ∨ target ∈ n.vcSent then n
  else
    let n := { n with vcSent := target :: n.vcSent }
    let (n, sig) := n.sign E (.viewChange target n.epoch (some n.qcHigh) n.id)
    let vc : ViewChange :=
      { view := target, epoch := n.epoch, highQC := some n.qcHigh, sender := n.id, sig := sig }
    let sendTo := n.leader
    if n.id = sendTo then
      let (n, fetch) := (n.addVC vc).maybeActivateLocked E C target
      n.sendFetch fetch
    else n.emit (.send sendTo (.viewChange vc))

/-- `HandleViewChange`: the leader of the target view counts a signed view change of its own
epoch. -/
def handleViewChange (E : Env) (C : Ctx) (vc : ViewChange)
    (n : Replica) : Replica :=
  if vc.epoch ≠ n.epoch then n
  else match n.sets.lookup n.epoch with
    | none => n
    | some set =>
      if ¬ set.has vc.sender then n
      else match n.leaderOfEpoch n.epoch vc.view with
        | none => n.crash
        | some l =>
          if n.id ≠ l then n
          else if ¬ verifyInSet E set vc.sender vc.sig vc.signable ∨ vc.view < n.view then n
          else
            let (n, fetch) := (n.addVC vc).maybeActivateLocked E C vc.view
            n.sendFetch fetch

/-! ## 5. Proposals -/

/-- What `handleProposalLocked` hands to its caller. -/
structure ProposalResult where
  vote : Option Vote := none
  kids : List Proposal := []
  fetch : Option Fetch := none
  sync : Option GetBlocks := none

/-- What `HandleProposal` sends after unlocking: the requests, and the vote to the proposer. -/
def ProposalResult.messages (self proposer : String) (r : ProposalResult) :
    List (String × Message) :=
  (r.fetch.map fun f =>
      (f.dest, .fetch { blockID := f.blockID, dest := "", sender := self })).toList ++
    (r.sync.map fun g => (g.dest, .getBlocks g)).toList ++
    (r.vote.map fun v => (proposer, .vote v)).toList

/-- A proposal whose parent is unknown is buffered; a large gap asks for a range, a small one
for the parent block. -/
def bufferProposal (C : Ctx) (p : Proposal) (n : Replica) : Replica × ProposalResult :=
  let b := p.block
  let n := { n with pending := n.pending.push b.parent p }
  if b.height > u64 (n.heightOf n.head + 3) then
    if n.syncInFlightLocked C.now b.parent then (n, {})
    else
      let (n, req) := n.markSyncLocked C.now n.bExec b.parent p.sender
      (n, { sync := some { requestID := req.id, anchor := req.anchor, target := b.parent,
                           dest := p.sender, sender := n.id } })
  else if n.fetchInFlightLocked C.now b.parent then (n, {})
  else
    (n.markFetchLocked C.now b.parent,
      { fetch := some { blockID := b.parent, dest := p.sender, sender := "" } })

/-- The structural check: the justification is a genuine certificate of the direct parent, and
the block is strictly higher than it. -/
def justified (E : Env) (n : Replica) (b parent : Block) : Bool :=
  match b.justify with
  | none => false
  | some qc => n.qcValid E qc && qc.nodeID = b.parent && b.height > parent.height

/-- The safeNode rule: the branch extends the lock, or the justification is strictly higher. -/
def safeNode (n : Replica) (b : Block) : Bool :=
  match n.blocks.lookup n.bLock with
  | none => true
  | some lock =>
    n.extendsLocked b (some lock) || (match b.justify with
      | none => false
      | some qc => qc.height > lock.height)

/-- The vote at the end of `handleProposalLocked`: only above `vHeight`, and only once the new
vote height is durable. -/
def castVote (E : Env) (b : Block) (n : Replica) : Replica × Option Vote :=
  if b.height ≤ n.vHeight then (n, none)
  else
    let (n, ok) := { n with vHeight := b.height }.persistVotedLocked b.height
    if ¬ ok then (n, none)
    else
      let (n, sig) := n.sign E (.vote b.height b.id n.id)
      (n, some { height := b.height, nodeID := b.id, voter := n.id, sig := sig })

/-- The end of `handleProposalLocked`, in the block's view: safeNode, insertion, vote. -/
def acceptProposal (E : Env) (b : Block) (n : Replica) : Replica × ProposalResult :=
  if n.panicked then (n, {})
  else if ¬ n.safeNode b then (n, {})
  else
    let (n, kids) := n.addBlockLocked E b
    let (n, vote) := n.castVote E b
    (n, { vote := vote, kids := kids })

def handleProposalLocked (E : Env) (C : Ctx) (p : Proposal) (n : Replica) :
    Replica × ProposalResult :=
  let b := p.block
  if b.id ≠ blockID b.view b.height b.parent b.cmd then (n, {})
  else if b.id ∈ n.blocks then (n, {})
  else if b.height ≤ n.heightOf n.bExec then (n, {})
  else match n.blocks.lookup b.parent with
    | none => n.bufferProposal C p
    | some parent =>
      if ¬ n.justified E b parent then (n, {})
      else match n.epochAndSetOfLocked E b with
        | (_, none) => (n, {})
        | (want, some set) =>
          if b.epoch ≠ want then (n, {})
          else match leaderOfSet n.leader0 (some set) b.view with
            | none => (n.crash, {})
            | some l =>
              if p.sender ≠ l ∨ ¬ verifyInSet E set p.sender p.sig p.signable then (n, {})
              else if b.view < n.view then (n, {})
              else if b.view > n.view ∧
                  ¬ n.proposalViewCertValidLocked E b.view p.viewChanges then (n, {})
              else (n.enterViewLockedEpoch b.view b.epoch).acceptProposal E b

/-- `HandleProposal` up to its recursion: the locked part and the sends; the released
proposals are returned. -/
def handleProposal (E : Env) (C : Ctx) (p : Proposal) (n : Replica) : Replica × List Proposal :=
  let (n, r) := n.handleProposalLocked E C p
  (n.sendAll (r.messages n.id p.sender), r.kids)

/-! ## 6. Fetching blocks -/

/-- `HandleFetch`: answer a known member with a signed copy of the block. -/
def handleFetch (E : Env) (f : Fetch) (n : Replica) : Replica :=
  if ¬ n.knownMemberLocked f.sender then n
  else match n.blocks.lookup f.blockID with
    | none => n
    | some b =>
      let (n, sig) := n.sign E (.blockFrom b n.id [])
      n.emit (.send f.sender (.block { block := b, sender := n.id, sig := sig }))

/-- The admission test of `HandleBlock`: an asked-for, content-addressed block above the
executed prefix with a genuine certificate of its parent at a lower height. -/
def blockAdmitted (E : Env) (now : Nat) (n : Replica) (b : Block) : Bool :=
  b.id = blockID b.view b.height b.parent b.cmd && b.id ∉ n.blocks &&
    b.height > n.heightOf n.bExec && n.fetchInFlightLocked now b.id &&
    (match b.justify with
     | none => false
     | some qc => n.qcValid E qc && qc.nodeID = b.parent && b.height > qc.height)

/-- `HandleBlock` up to its sends: the proposals released, and the parent to ask for when the
block had to be parked. -/
def handleBlock (E : Env) (C : Ctx) (bm : BlockMsg) (n : Replica) :
    Replica × List Proposal × Option BlockID :=
  if ¬ n.knownMemberLocked bm.sender ∨ ¬ n.verify E bm.sender bm.sig bm.signable then
    (n, [], none)
  else
    let b := bm.block
    if ¬ n.blockAdmitted E C.now b then (n, [], none)
    else if b.parent ≠ noID ∧ b.parent ∉ n.blocks then
      ({ n with pendingBlocks := n.pendingBlocks.push b.parent b }, [], some b.parent)
    else
      let (n, kids) := n.addBlockLocked E b
      (n, kids, none)

/-- `requestBlock`: ask a peer for a block, once. -/
def requestBlock (C : Ctx) (peer : String) (id : BlockID) (n : Replica) : Replica :=
  if id ∈ n.blocks ∨ n.fetchInFlightLocked C.now id then n
  else
    (n.markFetchLocked C.now id).sendFetch (some { blockID := id, dest := peer, sender := "" })

/-! ## 7. Range sync -/

/-- `collectRangeLocked`: the blocks strictly above `anchor` up to `target`, lowest first and
at most `maxSyncBlocks` of them; nothing when `anchor` is not on the branch. -/
def collectRangeLocked (n : Replica) (anchor target : BlockID) : List Block :=
  match n.blocks.lookup target with
  | none => []
  | some t =>
    let branch := n.path t
    if branch.any fun b => b.id = anchor then
      ((branch.takeWhile fun b => b.id ≠ anchor).reverse).take maxSyncBlocks
    else []

def handleGetBlocks (E : Env) (g : GetBlocks) (n : Replica) : Replica :=
  let blocks := if n.knownMemberLocked g.sender then n.collectRangeLocked g.anchor g.target else []
  if blocks = [] then n
  else
    let (n, sig) := n.sign E (.blockBatch g.requestID g.anchor g.target blocks n.id)
    n.emit (.send g.sender (.blockBatch
      { requestID := g.requestID, anchor := g.anchor, target := g.target, blocks := blocks,
        sender := n.id, sig := sig }))

/-- The validation loop of `insertBatchLocked`: `prev` is the block before, absent for the
lowest one; `prevH` and `wantEpoch` are its height and epoch. -/
def batchSound (E : Env) (n : Replica) : (prev : Option BlockID) → (prevH wantEpoch : Nat) →
    List Block → Bool
  | _, _, _, [] => true
  | prev, prevH, wantEpoch, b :: rest =>
    b.id = blockID b.view b.height b.parent b.cmd &&
      (match prev with
       | none => true
       | some id => b.parent = id) &&
      (match b.justify with
       | none => false
       | some qc => n.qcValid E qc && qc.nodeID = b.parent && qc.height = prevH &&
           qc.epoch = wantEpoch && b.height > prevH) &&
      batchSound E n (some b.id) b.height b.epoch rest

/-- One block of a sound batch is inserted unless it is known. -/
def insertBatchBlock (E : Env) (acc : Replica × List Proposal) (b : Block) :
    Replica × List Proposal :=
  if b.id ∈ acc.1.blocks then acc
  else
    let (n, kids) := acc.1.addBlockLocked E b
    (n, acc.2 ++ kids)

/-- `insertBatchLocked`: validate the batch as a whole, then insert it bottom-up. -/
def insertBatchLocked (E : Env) (bb : BlockBatch) (n : Replica) : Replica × List Proposal :=
  match bb.blocks with
  | [] => (n, [])
  | lowest :: _ =>
    match n.blocks.lookup lowest.parent with
    | none => (n, [])
    | some anchor =>
      if ¬ batchSound E n none anchor.height anchor.epoch bb.blocks then (n, [])
      else bb.blocks.foldl (insertBatchBlock E) (n, [])

/-- `HandleBlockBatch` up to its recursion: an authentic answer to an outstanding request is
inserted, and a partial batch asks for the rest. -/
def handleBlockBatch (E : Env) (C : Ctx) (bb : BlockBatch) (n : Replica) :
    Replica × List Proposal :=
  match n.syncReqs.lookup bb.requestID with
  | none => (n, [])
  | some req =>
    if req.peer ≠ bb.sender ∨ C.now > req.deadline then (n, [])
    else if ¬ n.verify E bb.sender bb.sig bb.signable then (n, [])
    else
      let (n, kids) := n.insertBatchLocked E bb
      let n := { n with syncReqs := n.syncReqs.erase bb.requestID }
      match bb.blocks.getLast? with
      | none => (n, kids)
      | some last =>
        if bb.target ∉ n.blocks ∧ last.id ∈ n.blocks then
          let (n, req) := n.markSyncLocked C.now last.id bb.target bb.sender
          (n.emit (.send bb.sender (.getBlocks
            { requestID := req.id, anchor := req.anchor, target := bb.target,
              dest := bb.sender, sender := n.id })), kids)
        else (n, kids)

end Replica

end Cachey.HotStuff
