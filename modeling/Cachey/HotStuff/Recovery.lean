/-
# Recovery and garbage collection of the HotStuff engine

`persist.go`: the replay of the engine's WAL records (`ApplyRecoveredRecord`) and the
recomputation of the derived pointers (`FinishRecovery`).  `gc.go`: the checkpoint taken while
garbage blocks are deleted (`gcLocked`), and its inverse at start-up (`LoadCheckpoint`).

The payload of a HOTSTUFF record is JSON; its decoder is a parameter, as for the commands.
Loading a checkpoint puts its blocks into a map, so their order in the file is immaterial: they
are sorted by height here, and the tie-break by id of the source is dropped.
-/
import Cachey.HotStuff.Handlers

namespace Cachey.HotStuff

open Wal (Op Record)

instance : Inhabited Block := ⟨(genesisBlock []).1⟩

namespace Replica

def blockAt (n : Replica) (id : BlockID) : Block := (n.blocks.lookup id).getD default

/-! ## 1. Replaying the engine's records -/

/-- `ApplyRecoveredRecord` on a decoded entry. -/
def applyRecoveredEntry (pe : PersistEntry) (n : Replica) : Replica :=
  match pe with
  | .block b =>
    if b.id = genesisID ∨ b.id ≠ blockID b.view b.height b.parent b.cmd then n
    else if b.parent ≠ noID ∧ b.parent ∉ n.blocks then n
    else if b.id ∈ n.blocks then n
    else { n with blocks := n.blocks.insert b.id b }
  | .qc qc => { n with recoverQCs := n.recoverQCs ++ [qc] }
  | .applied execID => if execID ∈ n.blocks then { n with recoverExec := execID } else n
  | .voted votedH => if votedH > n.vHeight then { n with vHeight := votedH } else n

/-- `ApplyRecoveredRecord`: records of other operations are ignored, a payload that does not
decode is an error. -/
def applyRecoveredRecord (decode : Bytes → Option PersistEntry) (rec : Record) (n : Replica) :
    Option Replica :=
  if rec.op ≠ Op.hotStuff then some n
  else match decode rec.data with
    | none => none
    | some pe => some (n.applyRecoveredEntry pe)

/-- The pointers `finishRecoveryLocked` recomputes while it folds the recovered QCs. -/
structure Recovered where
  replica : Replica
  qcHigh : QC
  lock : Block
  exec : Block

/-- One recovered QC through the structural chain rules. -/
def recoverQC (E : Env) (r : Recovered) (qc : QC) : Recovered :=
  if qc.height ≤ r.qcHigh.height then r
  else
    let r := { r with qcHigh := qc }
    match r.replica.blocks.lookup qc.nodeID with
    | none => r
    | some c =>
      match r.replica.blocks.lookup c.parent with
      | none => r
      | some parent =>
        if ¬ oneChainedBy parent c then r
        else
          let r := if parent.height > r.lock.height then { r with lock := parent } else r
          match r.replica.blocks.lookup parent.parent with
          | none => r
          | some gp =>
            if oneChainedBy gp parent ∧ gp.height > r.exec.height then
              { r with exec := gp, replica := r.replica.activateTransitionLocked E gp }
            else r

/-- Recovering certificates keeps what reads neither `qcHigh` nor the lock, and what a commit
keeps. -/
theorem foldl_recoverQC_keeps {E : Env} {P : Recovered → Prop}
    (hwrite : ∀ r high lock, P r → P { r with qcHigh := high, lock := lock })
    (hcommit : ∀ r id gp, P r → r.replica.blocks.lookup id = some gp →
      P { r with exec := gp, replica := r.replica.activateTransitionLocked E gp }) :
    ∀ (qcs : List QC) (r : Recovered), P r → P (qcs.foldl (recoverQC E) r)
  | [], _, h => h
  | qc :: qcs, r, h => by
    refine foldl_recoverQC_keeps hwrite hcommit qcs _ ?_
    unfold recoverQC
    split
    · exact h
    dsimp only
    split
    · exact hwrite r qc r.lock h
    split
    · exact hwrite r qc r.lock h
    split
    · exact hwrite r qc r.lock h
    next parent _ _ =>
    have hlock : P (if parent.height > r.lock.height then
        { replica := r.replica, qcHigh := qc, lock := parent, exec := r.exec }
        else { replica := r.replica, qcHigh := qc, lock := r.lock, exec := r.exec }) := by
      split
      · exact hwrite r qc parent h
      · exact hwrite r qc r.lock h
    generalize (if parent.height > r.lock.height then
      ({ replica := r.replica, qcHigh := qc, lock := parent, exec := r.exec } : Recovered)
      else { replica := r.replica, qcHigh := qc, lock := r.lock, exec := r.exec }) = r' at hlock ⊢
    split
    · exact hlock
    next gp hgp =>
    split
    · exact hcommit r' _ gp hlock hgp
    · exact hlock

/-- Mark a block and its ancestors applied. -/
def markPathApplied (b : Block) (n : Replica) : Replica :=
  ((n.path b).takeWhile fun cur => cur.id ≠ noID).foldl (fun n cur => n.markAppliedLocked cur.id) n

/-- `finishRecoveryLocked`. -/
def finishRecovery (E : Env) (n : Replica) : Replica :=
  let r := n.recoverQCs.foldl (recoverQC E)
    { replica := n, qcHigh := n.qcHigh, lock := n.blockAt n.bLock, exec := n.blockAt n.bExec }
  let n := r.replica
  let exec :=
    if n.recoverExec ≠ noID then
      match n.blocks.lookup n.recoverExec with
      | none => r.exec
      | some wm => if wm.height > r.exec.height then wm else r.exec
    else r.exec
  let known := r.qcHigh.nodeID ∈ n.blocks
  let qcHigh := if known then r.qcHigh else n.qcHigh
  let exec := if known then exec else n.blockAt genesisID
  let n := { n with qcHigh := qcHigh, head := qcHigh.nodeID, bLock := r.lock.id, bExec := exec.id }
  { n.markPathApplied exec with recoverQCs := [], recoverExec := noID }

/-! ## 2. Garbage collection -/

/-- `Checkpoint`: the retained engine state. -/
structure Checkpoint where
  gcBase : BlockID
  bExec : BlockID
  bLock : BlockID
  head : BlockID
  qc : QC
  epoch : Nat
  vHeight : Nat
  sets : GoMap Nat ValidatorSet
  blocks : List Block

/-- The GC base: the block of the committed prefix at the retention boundary. -/
def gcBoundary (n : Replica) (exec : Block) : Option Block :=
  let target := exec.height - n.gcRetention
  match (n.path exec).find? fun b => b.height ≤ target with
  | some base => some base
  | none => n.blocks.lookup genesisID

/-- The retained set: the committed prefix from the base, everything as high as `bExec`, and
genesis. -/
def retained (n : Replica) (exec base : Block) (b : Block) : Bool :=
  ((n.path exec).takeWhile fun x => x.height ≥ base.height).any (fun x => x.id = b.id) ||
    b.height ≥ exec.height || b.id = genesisID

/-- A garbage block goes with its bookkeeping; its waiter is woken. -/
def dropBlock (n : Replica) (id : BlockID) : Replica :=
  let n := { n with
    blocks := n.blocks.erase id
    votes := n.votes.erase id
    qcFormed := n.qcFormed.filter (· ≠ id)
    applied := n.applied.filter (· ≠ id)
    pending := n.pending.erase id
    pendingBlocks := n.pendingBlocks.erase id
    fetches := n.fetches.erase id }
  if id ∈ n.notify then { n with notify := n.notify.erase id }.emit (.wake id) else n

/-- `gcLocked`: snapshot the retained state, then delete the garbage.  `none` when there is
nothing new to delete. -/
def gcLocked (n : Replica) : Replica × Option Checkpoint :=
  match n.blocks.lookup n.bExec with
  | none => (n, none)
  | some exec =>
    match n.gcBoundary exec with
    | none => (n, none)
    | some base =>
      if base.id = n.gcBase then (n, none)
      else
        let keep := n.retained exec base
        let blocks := (n.blocks.values.filter keep).insertionSort fun a b => a.height ≤ b.height
        let cp : Checkpoint :=
          { gcBase := base.id, bExec := n.bExec, bLock := n.bLock, head := n.head,
            qc := n.qcHigh, epoch := n.epoch, vHeight := n.vHeight, sets := n.sets,
            blocks := blocks }
        let garbage := (n.blocks.values.filter fun b => ! keep b).map (·.id)
        ({ garbage.foldl dropBlock n with gcBase := base.id }, some cp)

/-- `LoadCheckpoint`: restore the retained state before the WAL replay. -/
def loadCheckpoint (cp : Checkpoint) (n : Replica) : Replica :=
  let blocks : GoMap BlockID Block := cp.blocks.foldl (fun m b => m.insert b.id b) ∅
  let blocks : GoMap BlockID Block :=
    if genesisID ∈ blocks then blocks else blocks.insert genesisID (genesisBlock n.all).1
  let n := { n with
    blocks := blocks
    gcBase := if cp.gcBase = noID ∨ cp.gcBase ∉ blocks then genesisID else cp.gcBase
    qcHigh := cp.qc
    head := cp.head
    bExec := cp.bExec
    bLock := cp.bLock
    epoch := cp.epoch
    vHeight := cp.vHeight
    sets := cp.sets }
  match n.blocks.lookup n.bExec with
  | none => n
  | some exec => (n.path exec).foldl (fun n b => n.markAppliedLocked b.id) n

end Replica

end Cachey.HotStuff
