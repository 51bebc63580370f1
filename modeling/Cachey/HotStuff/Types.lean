/-
# Chained HotStuff: blocks, certificates, messages and validator sets

The data of `internal/hotstuff`: `block.go`, `message.go`, the message authentication of
`auth.go` and the pure part of `epoch.go`.

Three things of the source are external to it and appear here as follows.

* **SHA-256.**  A block id is the digest of (view, height, parent, cmd).  `BlockID` keeps the
  hashed content itself: two ids are equal exactly when the contents are, which is what
  "collision-free" says.  `raw` is any string that is not such a digest: `"genesis"`, the empty
  parent of genesis, and whatever else a peer may put in the field.
* **Ed25519 and JSON.**  `Env` carries `sign`, `verify`, `publicKey` and the two JSON decoders as
  parameters.  What a signature covers is the canonical JSON of the message without its `sig`
  field, `Signable` here.  A `Proposal` without view changes and a `BlockMsg` have the SAME
  canonical JSON (`view_changes` is `omitempty`), so both sign the constructor `blockFrom`.
* **Map iteration.**  See `Cachey.Lib.GoMap`.
-/
import Cachey.Lib.GoMap
import Cachey.Lib.Search
import Cachey.Wal.Record
import Mathlib.Algebra.Ring.Int.Defs
import Mathlib.Data.String.Basic

namespace Cachey.HotStuff

open Wal (Op Record)

/-! ## 1. Blocks and quorum certificates -/

/-- A block id: the content digest of `blockID`, or a string that is no digest. -/
inductive BlockID where
  | raw (text : String)
  | digest (view height : Nat) (parent : BlockID) (cmd : Bytes)
deriving DecidableEq, Repr

instance : Inhabited BlockID := ⟨.raw ""⟩

namespace BlockID

/-- The height an id was hashed with; a string that is no digest has none. -/
def height : BlockID → Nat
  | raw _ => 0
  | digest _ h _ _ => h

/-- The parent an id was hashed with. -/
def parent : BlockID → BlockID
  | raw text => raw text
  | digest _ _ p _ => p

/-- The ids on the parent chain of an id, itself first. -/
def ancestors : BlockID → List BlockID
  | raw text => [raw text]
  | digest v h p cmd => digest v h p cmd :: p.ancestors

/-- How many digests are nested in an id. -/
def depth : BlockID → Nat
  | raw _ => 0
  | digest _ _ p _ => p.depth + 1

end BlockID

/-- `genesisID`: the id of the single root block. -/
def genesisID : BlockID := .raw "genesis"

/-- The empty string in an id field (genesis' parent; "none" in `recoverExec`). -/
def noID : BlockID := .raw ""

/-- `blockID`: the deterministic identity of a block. -/
def blockID (view h : Nat) (parent : BlockID) (cmd : Bytes) : BlockID := .digest view h parent cmd

/-- `QC`: votes of distinct members (id to signature) for `nodeID` at `height`. -/
structure QC where
  epoch : Nat
  nodeID : BlockID
  height : Nat
  votes : GoMap String Bytes
deriving DecidableEq, Inhabited

/-- `newQCEpoch`: a certificate without votes yet. -/
def newQCEpoch (epoch : Nat) (nodeID : BlockID) (height : Nat) : QC :=
  { epoch := epoch, nodeID := nodeID, height := height, votes := ∅ }

/-- `Block`: one node of the block tree. -/
structure Block where
  view : Nat
  height : Nat
  parent : BlockID
  id : BlockID
  cmd : Bytes
  justify : Option QC
  epoch : Nat
deriving DecidableEq

/-- `genesisBlock`: the root block and its pre-certified QC, which every member "voted" for. -/
def genesisBlock (members : List String) : Block × QC :=
  let q := { newQCEpoch 0 genesisID 0 with
    votes := members.foldl (fun m id => m.insert id []) ∅ }
  ({ view := 0, height := 0, parent := noID, id := genesisID, cmd := [], justify := some q,
     epoch := 0 }, q)

/-- `oneChainedBy`: `child` is a direct child of `parent` that certifies it. -/
def oneChainedBy (parent child : Block) : Bool :=
  child.parent ≠ noID && child.parent = parent.id &&
    (match child.justify with
     | none => false
     | some qc => qc.nodeID = parent.id)

/-! ## 2. Messages -/

/-- `Vote`: one replica's acceptance of a block. -/
structure Vote where
  height : Nat
  nodeID : BlockID
  voter : String
  sig : Bytes
deriving DecidableEq

/-- `ViewChange`: a request to move to `view`, reporting the sender's highest QC. -/
structure ViewChange where
  view : Nat
  epoch : Nat
  highQC : Option QC
  sender : String
  sig : Bytes
deriving DecidableEq

/-- `Proposal`: a leader's broadcast of a new block. -/
structure Proposal where
  block : Block
  sender : String
  viewChanges : List ViewChange
  sig : Bytes
deriving DecidableEq

/-- `Fetch`: asks `dest` for one block. -/
structure Fetch where
  blockID : BlockID
  dest : String
  sender : String
deriving DecidableEq

/-- `BlockMsg`: the answer to a `Fetch`. -/
structure BlockMsg where
  block : Block
  sender : String
  sig : Bytes
deriving DecidableEq

/-- `GetBlocks`: asks for the blocks above `anchor` up to `target`. -/
structure GetBlocks where
  requestID : Nat
  anchor : BlockID
  target : BlockID
  dest : String
  sender : String
deriving DecidableEq

/-- `BlockBatch`: the answer to a `GetBlocks`. -/
structure BlockBatch where
  requestID : Nat
  anchor : BlockID
  target : BlockID
  blocks : List Block
  sender : String
  sig : Bytes
deriving DecidableEq

/-- What the transport delivers. -/
inductive Message where
  | proposal (p : Proposal)
  | vote (v : Vote)
  | viewChange (vc : ViewChange)
  | fetch (f : Fetch)
  | block (bm : BlockMsg)
  | getBlocks (g : GetBlocks)
  | blockBatch (bb : BlockBatch)
deriving DecidableEq

/-! ## 3. What is signed -/

/-- The canonical JSON a signature covers (`canonicalSignable`): the message without `sig`. -/
inductive Signable where
  | vote (height : Nat) (nodeID : BlockID) (voter : String)
  | blockFrom (block : Block) (sender : String) (viewChanges : List ViewChange)
  | viewChange (view epoch : Nat) (highQC : Option QC) (sender : String)
  | blockBatch (requestID : Nat) (anchor target : BlockID) (blocks : List Block) (sender : String)
deriving DecidableEq

def Vote.signable (v : Vote) : Signable := .vote v.height v.nodeID v.voter

def Proposal.signable (p : Proposal) : Signable := .blockFrom p.block p.sender p.viewChanges

def ViewChange.signable (vc : ViewChange) : Signable :=
  .viewChange vc.view vc.epoch vc.highQC vc.sender

def BlockMsg.signable (bm : BlockMsg) : Signable := .blockFrom bm.block bm.sender []

def BlockBatch.signable (bb : BlockBatch) : Signable :=
  .blockBatch bb.requestID bb.anchor bb.target bb.blocks bb.sender

/-! ## 4. Membership commands and validator sets -/

/-- `ValidatorEntry`: one validator to add. -/
structure ValidatorEntry where
  id : String
  pub : Bytes
deriving DecidableEq

/-- `MembershipChange`: the command of a membership-transition block. -/
structure MembershipChange where
  add : List ValidatorEntry
  remove : List String
deriving DecidableEq

/-- The external functions: Ed25519 (`sign` with a private key, `verify` with a public key,
`publicKey` from private) and the JSON decoders of a block's command and of its membership
payload. -/
structure Env where
  sign : Bytes → Signable → Bytes
  verify : Bytes → Signable → Bytes → Bool
  publicKey : Bytes → Bytes
  record : Bytes → Option Record
  change : Bytes → Option MembershipChange

def publicKeySize : Nat := 32

/-- `ValidatorSet`: the consensus configuration of one epoch. -/
structure ValidatorSet where
  epoch : Nat
  validators : List String
  publicKeys : GoMap String Bytes
  f : Nat
  quorum : Nat
deriving DecidableEq

/-- `newValidatorSet`: the fault bound is `(N-1)/3` and the quorum `2f+1`. -/
def newValidatorSet (epoch : Nat) (ids : List String) (keys : GoMap String Bytes) :
    ValidatorSet :=
  let f := (ids.length - 1) / 3
  { epoch := epoch, validators := ids, publicKeys := keys, f := f, quorum := 2 * f + 1 }

/-- `sort.Strings`. -/
def sortStrings (l : List String) : List String := l.insertionSort (· ≤ ·)

namespace ValidatorSet

/-- `has`: membership by binary search in the sorted ids. -/
def has (s : ValidatorSet) (id : String) : Bool :=
  s.validators[searchSorted s.validators id]? == some id

/-- One `mc.Remove` entry: the id must be a member. -/
def removeMember (members : List String) (id : String) : Option (List String) :=
  if id ∈ members then some (members.erase id) else none

/-- One `mc.Add` entry: the id must be new and its key of the right size. -/
def addMember (acc : List String × GoMap String Bytes) (a : ValidatorEntry) :
    Option (List String × GoMap String Bytes) :=
  if a.id ∈ acc.1 ∨ a.pub.length ≠ publicKeySize then none
  else some (acc.1 ++ [a.id], acc.2.insert a.id a.pub)

/-- `apply`: the next epoch's set, or `none` for a malformed change. -/
def apply (s : ValidatorSet) (mc : MembershipChange) : Option ValidatorSet :=
  match mc.remove.foldlM removeMember s.validators.dedup with
  | none => none
  | some members =>
    match mc.add.foldlM addMember (members, s.publicKeys) with
    | none => none
    | some (members, keys) =>
      if members = [] then none
      else some (newValidatorSet (u64 (s.epoch + 1)) (sortStrings members) keys)

end ValidatorSet

/-- A command that decodes to a record with `OpMembership`. -/
def isMembershipCmd (E : Env) (cmd : Bytes) : Bool :=
  cmd ≠ [] && (match E.record cmd with
    | none => false
    | some rec => rec.op = Op.membership)

def isMembershipBlock (E : Env) (b : Block) : Bool := isMembershipCmd E b.cmd

/-- `membershipOf`: the membership change carried by `b`. -/
def membershipOf (E : Env) (b : Block) : Option MembershipChange :=
  if b.cmd = [] then none
  else match E.record b.cmd with
    | none => none
    | some rec => if rec.op = Op.membership then E.change rec.data else none

/-- A Go `int` on a 64-bit platform, from the low 64 bits. -/
def int64 (n : Nat) : Int :=
  if n % 2 ^ 64 < 2 ^ 63 then (n % 2 ^ 64 : Nat) else (n % 2 ^ 64 : Nat) - 2 ^ 64

/-- `leaderOfSet`: round-robin over the sorted validators from the view-0 leader.  The index is
`(idx + int(view)) % len`, where `int(view)` is negative from view 2^63 on; `none` is the
out-of-range panic of a negative index. -/
def leaderOfSet (leader0 : String) (set : Option ValidatorSet) (view : Nat) : Option String :=
  match set with
  | none => some ""
  | some s =>
    if s.validators = [] then some ""
    else
      let i := searchSorted s.validators leader0
      let idx := if s.validators[i]? = some leader0 then i else 0
      let k := (int64 (idx + view)).tmod s.validators.length
      if k < 0 then none else s.validators[k.toNat]?

/-- `verifyInSet`: a signature by the sender's key in `set`. -/
def verifyInSet (E : Env) (set : ValidatorSet) (sender : String) (sig : Bytes) (m : Signable) :
    Bool :=
  match set.publicKeys.lookup sender with
  | none => false
  | some pub => pub ≠ [] && E.verify pub m sig

end Cachey.HotStuff
