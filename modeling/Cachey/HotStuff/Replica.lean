/-
# The HotStuff replica: state, certificates, commit rule

`Replica` (`node.go`) and the functions every handler is built from: certificate validation
(`auth.go`), the ancestry walk and the epoch derivation (`epoch.go`), durable writes
(`persist.go`) and the lock/commit rule (`node.go`).

Every handler runs under the replica's mutex, so a handler is a function from the state to the
state.  What a handler does to the outside -- signatures made, records written, commands handed
to `applyFn`, blocks executed, messages sent, waiters woken -- is appended to `out`, newest
first.  `out` is a journal of the model; no function reads it.

* **Durable writes** take their outcome from `writes`, one per call: written (`ok`), refused
  (`lost`), or reported as failed by the timeout although the record reaches the log (`late`).
* **Walks.**  The loops `for b := start; b != nil; b = n.blocks[b.Parent]` all read one list,
  `path`.  Its fuel is the nesting depth of the parent's digest: a digest contains its parent's
  id, so the walk cannot be longer.
* **Nil reads.**  `n.blocks[n.bExec].Height` and its like read a pointer into the tree; an
  absent block reads as height 0 here.  The one dereference that could be nil without such a
  pointer being lost, in `onNewQCLocked`, is modelled as the crash it is, like the negative
  index of `leaderOfSet`: `panicked` is set and the process is gone.
* `qcHigh` is never nil (the constructor, every raise and every checkpoint set it), so the nil
  tests on it are dropped.  `peers`, `f`, `viewIdx`, `baseFrom` and a set's `Hash` are written
  and never read, and are left out.
-/
import Cachey.HotStuff.Types

namespace Cachey.HotStuff

open Wal (WriteOutcome)

/-! ## 1. State -/

/-- `persistEntry`: the payload of one HotStuff WAL record. -/
inductive PersistEntry where
  | block (b : Block)
  | qc (qc : QC)
  | applied (execID : BlockID)
  | voted (votedH : Nat)
deriving DecidableEq

/-- What a handler does to the world outside the replica's memory. -/
inductive Effect where
  | signed (m : Signable)
  | wrote (pe : PersistEntry) (outcome : WriteOutcome)
  | apply (b : Block)
  | exec (id : BlockID)
  | wake (id : BlockID)
  | send (peer : String) (m : Message)
deriving DecidableEq

/-- `syncRequest`: one outstanding range request. -/
structure SyncRequest where
  id : Nat
  anchor : BlockID
  target : BlockID
  peer : String
  deadline : Nat
deriving DecidableEq

/-- `Replica`: the protocol state under `mu`. -/
structure Replica where
  id : String
  all : List String
  epoch : Nat
  sets : GoMap Nat ValidatorSet
  leader0 : String
  priv : Bytes
  pub : Bytes
  peerKeys : GoMap String Bytes
  view : Nat
  leader : String
  active : Bool
  freshBase : Bool
  blocks : GoMap BlockID Block
  qcHigh : QC
  head : BlockID
  bLock : BlockID
  bExec : BlockID
  vHeight : Nat
  pending : GoMap BlockID (List Proposal)
  pendingBlocks : GoMap BlockID (List Block)
  votes : GoMap BlockID (GoMap String Bytes)
  qcFormed : List BlockID
  notify : List BlockID
  applied : List BlockID
  vcs : GoMap Nat (GoMap String ViewChange)
  vcSent : List Nat
  wantBase : Option QC
  fetches : GoMap BlockID Nat
  logStore : Bool
  recoverQCs : List QC
  recoverExec : BlockID
  syncSeq : Nat
  syncReqs : GoMap Nat SyncRequest
  gcBase : BlockID
  gcRetention : Nat
  writes : List WriteOutcome
  out : List Effect
  panicked : Bool
deriving Inhabited

/-- `Config`: what `NewReplica` is given. -/
structure Config where
  id : String
  peers : List String
  leader : String
  privateKey : Bytes
  gcRetention : Nat := 0

/-- The errors of `NewReplica` that depend on the configuration. -/
inductive ConfigError where
  | idRequired
  | duplicateID (id : String)
  | leaderNotMember (leader : String)
deriving DecidableEq, Repr

def defaultGCRetention : Nat := 100

/-- The first id that occurs twice, in the order `NewReplica` meets it. -/
def firstDuplicate : List String → List String → Option String
  | _, [] => none
  | seen, id :: rest => if id ∈ seen then some id else firstDuplicate (id :: seen) rest

/-- `NewReplica`: a replica of the genesis epoch that knows its own key only. -/
def newReplica (E : Env) (cfg : Config) : Except ConfigError Replica :=
  if cfg.id = "" then .error .idRequired
  else
    let leader := if cfg.leader = "" then cfg.id else cfg.leader
    let all := cfg.id :: cfg.peers
    match firstDuplicate [] all with
    | some id => .error (.duplicateID id)
    | none =>
      if leader ∉ all then .error (.leaderNotMember leader)
      else
        let all := sortStrings all
        let pub := E.publicKey cfg.privateKey
        let g := genesisBlock all
        .ok {
          id := cfg.id, all := all, epoch := 0,
          sets := (∅ : GoMap Nat ValidatorSet).insert 0
            (newValidatorSet 0 all ((∅ : GoMap String Bytes).insert cfg.id pub)),
          leader0 := leader, priv := cfg.privateKey, pub := pub,
          peerKeys := (∅ : GoMap String Bytes).insert cfg.id pub,
          view := 0, leader := leader, active := cfg.id = leader, freshBase := false,
          blocks := (∅ : GoMap BlockID Block).insert genesisID g.1, qcHigh := g.2,
          head := genesisID, bLock := genesisID, bExec := genesisID, vHeight := 0,
          pending := ∅, pendingBlocks := ∅, votes := ∅, qcFormed := [], notify := [],
          applied := [], vcs := ∅, vcSent := [], wantBase := none, fetches := ∅,
          logStore := false, recoverQCs := [], recoverExec := noID, syncSeq := 0,
          syncReqs := ∅, gcBase := genesisID,
          gcRetention := if cfg.gcRetention = 0 then defaultGCRetention else cfg.gcRetention,
          writes := [], out := [], panicked := false }

namespace Replica

/-! ## 2. Keys, signatures, certificates -/

/-- Append one entry to the journal. -/
def emit (e : Effect) (n : Replica) : Replica := { n with out := e :: n.out }

/-- The process dies on a run-time panic. -/
def crash (n : Replica) : Replica := { n with panicked := true }

/-- `SetPeerKey`: pins a peer's key; a different key for a pinned member is refused. -/
def setPeerKey (peer : String) (pub : Bytes) (n : Replica) : Replica × Bool :=
  if pub = [] then (n, false)
  else
    let old := (n.peerKeys.lookup peer).getD []
    if old ≠ [] ∧ old ≠ pub then (n, false)
    else
      let n := { n with peerKeys := n.peerKeys.insert peer pub }
      match n.sets.lookup 0 with
      | none => (n, true)
      | some set =>
        if set.has peer then
          let set := { set with publicKeys := set.publicKeys.insert peer pub }
          ({ n with sets := n.sets.insert 0 set }, true)
        else (n, true)

/-- `sign`: the signature of this replica over `m`, recorded as made. -/
def sign (E : Env) (m : Signable) (n : Replica) : Replica × Bytes :=
  (n.emit (.signed m), E.sign n.priv m)

/-- `verify`: a signature by the pinned key of `sender`. -/
def verify (E : Env) (n : Replica) (sender : String) (sig : Bytes) (m : Signable) : Bool :=
  match n.peerKeys.lookup sender with
  | none => false
  | some pub => pub ≠ [] && E.verify pub m sig

/-- The height of the block a pointer names. -/
def heightOf (n : Replica) (id : BlockID) : Nat :=
  match n.blocks.lookup id with
  | none => 0
  | some b => b.height

/-- The certified block is known and has another height or epoch than the certificate claims. -/
def contradicts (n : Replica) (qc : QC) : Bool :=
  match n.blocks.lookup qc.nodeID with
  | none => false
  | some b => b.height ≠ qc.height || b.epoch ≠ qc.epoch

/-- `qcValid`: the genesis root, or a quorum of the epoch's validators whose signatures on
exactly this height and id verify, agreeing with the certified block where that is known. -/
def qcValid (E : Env) (n : Replica) (qc : QC) : Bool :=
  if qc.nodeID = genesisID then qc.height = 0 && qc.epoch = 0
  else match n.sets.lookup qc.epoch with
    | none => false
    | some set =>
      if qc.votes.len < set.quorum then false
      else if n.contradicts qc then false
      else qc.votes.entries.all fun e =>
        set.has e.1 && verifyInSet E set e.1 e.2 (.vote qc.height qc.nodeID e.1)

end Replica

/-! ## 3. The ancestry walk and the epoch derivation -/

/-- The blocks met from `b` along parent links, `b` first. -/
def walk (blocks : GoMap BlockID Block) : (fuel : Nat) → Block → List Block
  | 0, b => [b]
  | fuel + 1, b =>
    b :: if b.parent = noID then [] else
      match blocks.lookup b.parent with
      | none => []
      | some p => walk blocks fuel p

/-- The committed membership transitions on a path (newest block first): a membership block
with three direct one-chain steps above it.  `c1`, `c2`, `c3` are the three blocks walked
before the current one. -/
def transitions (E : Env) : (c1 c2 c3 : Option Block) → List Block → List Block
  | _, _, _, [] => []
  | c1, c2, c3, cur :: rest =>
    let older := transitions E (some cur) c1 c2 rest
    match c1, c2, c3 with
    | some b1, some b2, some b3 =>
      if isMembershipBlock E cur && oneChainedBy cur b1 && oneChainedBy b1 b2 &&
          oneChainedBy b2 b3 then cur :: older
      else older
    | _, _, _ => older

/-- One transition applied to the set derived so far. -/
def applyTransition (E : Env) (set : Option ValidatorSet) (t : Block) : Option ValidatorSet :=
  match membershipOf E t, set with
  | some mc, some s => s.apply mc
  | _, _ => none

namespace Replica

/-- The blocks from `b` to the root of the tree, as the ancestry loops visit them. -/
def path (n : Replica) (b : Block) : List Block := walk n.blocks (b.parent.depth + 1) b

/-- `epochAndSetOfLocked`: the epoch of `b` by its ancestry above the GC base, and its set. -/
def epochAndSetOfLocked (E : Env) (n : Replica) (b : Block) : Nat × Option ValidatorSet :=
  match n.blocks.lookup n.gcBase with
  | none => (0, n.sets.lookup 0)
  | some base =>
    let baseSet := n.sets.lookup base.epoch
    if b.height ≤ base.height then (base.epoch, baseSet)
    else
      let ts := transitions E none none none
        ((n.path b).takeWhile fun cur => cur.id ≠ n.gcBase)
      (u64 (base.epoch + ts.length), ts.reverse.foldl (applyTransition E) baseSet)

def leaderOfEpoch (n : Replica) (epoch view : Nat) : Option String :=
  leaderOfSet n.leader0 (n.sets.lookup epoch) view

/-- `knownMemberLocked`: a validator in any known epoch. -/
def knownMemberLocked (n : Replica) (id : String) : Bool :=
  n.sets.values.any fun set => set.has id

/-- `activateTransitionLocked`: a committed membership block installs the next epoch's set. -/
def activateTransitionLocked (E : Env) (b : Block) (n : Replica) : Replica :=
  if ¬ isMembershipBlock E b then n
  else match membershipOf E b, n.sets.lookup b.epoch with
    | some mc, some old =>
      match old.apply mc with
      | none => n
      | some ns => { n with sets := n.sets.insert ns.epoch ns, epoch := ns.epoch }
    | _, _ => n

/-- `extendsLocked`: the branch of `b` contains `lock`. -/
def extendsLocked (n : Replica) (b : Block) (lock : Option Block) : Bool :=
  match lock with
  | none => true
  | some l => (n.path b).any fun cur => cur.parent ≠ noID && cur.parent = l.id

/-! ## 4. Durable writes -/

/-- `persistLocked`: one durable write; without a log store nothing is written and nothing
fails.  The result tells whether the call returned nil. -/
def persistLocked (pe : PersistEntry) (n : Replica) : Replica × Bool :=
  if ¬ n.logStore then (n, true)
  else
    let o := n.writes.headD .ok
    ({ n with writes := n.writes.tail }.emit (.wrote pe o), o = .ok)

/-- `persistRecordLocked`: a best-effort write. -/
def persistRecordLocked (pe : PersistEntry) (n : Replica) : Replica := (n.persistLocked pe).1

/-- `persistVotedLocked`: the vote-height record; the caller drops the vote on failure. -/
def persistVotedLocked (h : Nat) (n : Replica) : Replica × Bool := n.persistLocked (.voted h)

/-! ## 5. Lock and commit -/

/-- `markAppliedLocked`: the mark, and the wake-up of a waiter. -/
def markAppliedLocked (id : BlockID) (n : Replica) : Replica :=
  if id ∈ n.applied then n
  else
    let n := { n with applied := id :: n.applied }
    if id ∈ n.notify then { n with notify := n.notify.erase id }.emit (.wake id) else n

/-- One block of the span `commitUpToLocked` executes. -/
def execBlock (E : Env) (n : Replica) (b : Block) : Replica :=
  let n := if b.cmd ≠ [] ∧ b.id ≠ genesisID then n.emit (.apply b) else n
  let n := n.activateTransitionLocked E b
  markAppliedLocked b.id ({ n with bExec := b.id }.emit (.exec b.id))

/-- `commitUpToLocked`: execute the blocks above `bExec` up to `gp`, oldest first, then record
the watermark. -/
def commitUpToLocked (E : Env) (gp : Block) (n : Replica) : Replica :=
  let span := (n.path gp).takeWhile fun b => b.id ≠ n.bExec
  let n := span.reverse.foldl (execBlock E) n
  n.persistRecordLocked (.applied n.bExec)

/-- The lock: the certified block's parent, when it is higher than the present one. -/
def raiseLock (parent : Block) (n : Replica) : Replica :=
  if parent.height > n.heightOf n.bLock then { n with bLock := parent.id } else n

/-- The chain rule of `onNewQCLocked` on the certified block `c`: a 2-chain locks the parent, a
3-chain commits the grandparent. -/
def chainRule (E : Env) (c : Block) (n : Replica) : Replica :=
  match n.blocks.lookup c.parent with
  | none => if c.parent = noID then n else n.crash
  | some parent =>
    if ¬ oneChainedBy parent c then n
    else
      let n := n.raiseLock parent
      match n.blocks.lookup parent.parent with
      | none => n
      | some gp =>
        if oneChainedBy gp parent ∧ gp.height > n.heightOf n.bExec then n.commitUpToLocked E gp
        else n

/-- `onNewQCLocked`: raise `qcHigh` to a valid, higher certificate, record the raise, and apply
the chain rule when the certified block is known. -/
def onNewQCLocked (E : Env) (qc : QC) (n : Replica) : Replica :=
  if ¬ n.qcValid E qc then n
  else if qc.height ≤ n.qcHigh.height then n
  else
    let n := { n with qcHigh := qc }.persistRecordLocked (.qc qc)
    match n.blocks.lookup qc.nodeID with
    | none => n
    | some c => n.chainRule E c

/-! ## 6. Adopting a base -/

/-- `activateWithBaseLocked`: resume proposing from the certified block of `base`. -/
def activateWithBaseLocked (base : QC) (n : Replica) : Replica :=
  { n with
    head := if base.nodeID ≠ noID then base.nodeID else n.head
    freshBase := true
    active := n.id = n.leader
    wantBase := none }

/-- The raise `adoptBaseLocked` and `completeBaseLocked` share: `qcHigh` is set first, then
`onNewQCLocked` is called on it. -/
def adoptQC (E : Env) (high : QC) (n : Replica) : Replica :=
  onNewQCLocked E high { n with qcHigh := high }

/-- `completeBaseLocked`: the block just inserted may be the base the leader waits for. -/
def completeBaseLocked (E : Env) (id : BlockID) (n : Replica) : Replica :=
  match n.wantBase with
  | none => n
  | some high =>
    if id ≠ high.nodeID then n
    else
      let n := if high.height > n.qcHigh.height then n.adoptQC E high else n
      n.activateWithBaseLocked n.qcHigh

end Replica

end Cachey.HotStuff
