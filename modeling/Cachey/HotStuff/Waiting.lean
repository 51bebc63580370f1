/-
# Waiting for a block to commit

`WaitCommitted` (`node.go`): a caller names a block and blocks until a channel of the replica is
closed.  The channel is closed from TWO places: by `markAppliedLocked` when the block is executed,
and by `gcLocked` when it is deleted from the tree.

* An execution is sound: what a call of the engine wakes, the same call executes (`Accounted`).
* A mark found after a restart stands on the executed prefix that was restored
  (`reopen_applied`).
* A deletion is NOT: what lies below `bExec` and is not retained may be a block of a branch that
  was given up, and its caller is told nil.
-/
import Cachey.HotStuff.Executions
import Cachey.HotStuff.Script

namespace Cachey.HotStuff

open Wal (WriteOutcome)

/-! ## 1. What a call wakes and marks -/

/-- Marks and wake-ups since `before` belong to executions of the journal. -/
structure Accounted (before : List BlockID) (n : Replica) : Prop where
  applied : ∀ id ∈ n.applied, id ∈ before ∨ .exec id ∈ n.out
  woken : ∀ id, .wake id ∈ n.out → .exec id ∈ n.out

namespace Accounted

variable {E : Env} {before : List BlockID} {n n' : Replica}

theorem calm (h : Accounted before n) (hc : Calm n n') : Accounted before n' := by
  have hexec : ∀ id, .exec id ∈ n.out → .exec id ∈ n'.out := by
    intro id hid
    have : .exec id ∈ n'.out.filter Effect.isExec := by
      rw [hc.executed]
      exact List.mem_filter.mpr ⟨hid, rfl⟩
    exact (List.mem_filter.mp this).1
  refine ⟨fun id hid => ?_, fun id hid => hexec id (h.woken id ?_)⟩
  · rw [hc.applied] at hid
    exact (h.applied id hid).imp_right (hexec id)
  · have : .wake id ∈ n.out.filter Effect.isDelivery := by
      rw [← hc.deliveries]
      exact List.mem_filter.mpr ⟨hid, rfl⟩
    exact (List.mem_filter.mp this).1

theorem emit (h : Accounted before n) {e : Effect} (he : ∀ id, e ≠ .wake id) :
    Accounted before (n.emit e) where
  applied := fun id hid => (h.applied id hid).imp_right (List.mem_cons_of_mem e)
  woken := by
    intro id hid
    rcases List.mem_cons.mp hid with rfl | hid
    · exact absurd rfl (he id)
    · exact List.mem_cons_of_mem e (h.woken id hid)

theorem markAppliedLocked (h : Accounted before n) {id : BlockID} (hid : .exec id ∈ n.out) :
    Accounted before (n.markAppliedLocked id) := by
  have hmark : Accounted before { n with applied := id :: n.applied } := by
    refine ⟨fun x hx => ?_, h.woken⟩
    rcases List.mem_cons.mp hx with rfl | hx
    · exact Or.inr hid
    · exact h.applied x hx
  unfold Replica.markAppliedLocked
  split
  · exact h
  · dsimp only
    split
    · refine ⟨fun x hx => (hmark.applied x hx).imp_right (List.mem_cons_of_mem _), fun x hx => ?_⟩
      rcases List.mem_cons.mp hx with hx | hx
      · obtain rfl := Effect.wake.inj hx
        exact List.mem_cons_of_mem _ hid
      · exact List.mem_cons_of_mem _ (h.woken x hx)
    · exact hmark

theorem execBlock (h : Accounted before n) (b : Block) : Accounted before (n.execBlock E b) := by
  unfold Replica.execBlock
  dsimp only
  have happly : Accounted before
      (if b.cmd ≠ [] ∧ b.id ≠ genesisID then n.emit (.apply b) else n) := by
    split
    · exact h.emit fun _ => Effect.noConfusion
    · exact h
  rw [activateTransitionLocked_eq]
  refine markAppliedLocked (emit ⟨?_, ?_⟩ fun _ => Effect.noConfusion) List.mem_cons_self
  · exact happly.applied
  · exact happly.woken

theorem handle {C : Ctx} (hp : Planted n) (hout : n.out = []) (inp : Input) :
    Accounted n.applied (n.handle E C inp) := by
  refine hp.executing (P := Accounted n.applied) (fun _ _ hc h => h.calm hc)
    (fun _ b _ h => h.execBlock b) hout inp ?_
  exact ⟨fun id hid => Or.inl hid, fun id hid => by rw [hout] at hid; exact absurd hid (by simp)⟩

end Accounted

/-! ## 2. Marks restored by a restart

The marks are not on disk.  Recovery sets them anew while it walks down from the executed prefix it
has restored, and a caller that comes afterwards is answered by them at once. -/

variable {n : Replica} {x : BlockID} {E : Env}

theorem mem_applied_markAppliedLocked {id : BlockID} (hx : x ∈ (n.markAppliedLocked id).applied) :
    x ∈ n.applied ∨ x = id := by
  have hcons : ∀ {y : BlockID}, y ∈ id :: n.applied → y ∈ n.applied ∨ y = id := by
    intro y hy
    exact (List.mem_cons.mp hy).symm
  unfold Replica.markAppliedLocked at hx
  split at hx
  · exact Or.inl hx
  · dsimp only at hx
    split at hx <;> exact hcons hx

theorem mem_applied_foldl_mark : ∀ (l : List Block) (n : Replica),
    x ∈ (l.foldl (fun n b => n.markAppliedLocked b.id) n).applied →
      x ∈ n.applied ∨ ∃ b ∈ l, b.id = x
  | [], _, hx => Or.inl hx
  | b :: l, n, hx => by
    rcases mem_applied_foldl_mark l _ hx with hx | ⟨c, hc, hid⟩
    · exact (mem_applied_markAppliedLocked hx).imp_right fun h => ⟨b, List.mem_cons_self, h.symm⟩
    · exact Or.inr ⟨c, List.mem_cons_of_mem _ hc, hid⟩

theorem mem_applied_loadCheckpoint (h : Planted n) {cp : Replica.Checkpoint}
    (hcp : ∀ b ∈ cp.blocks, IsGenesis b ∨ b.Sound) (hx : x ∈ (n.loadCheckpoint cp).applied) :
    x ∈ n.applied ∨ x ∈ cp.bExec.ancestors := by
  have hp := h.loadCheckpoint hcp
  unfold Replica.loadCheckpoint at hx hp
  dsimp only at hx hp
  split at hx
  · exact Or.inl hx
  next exec hexec =>
    rw [hexec] at hp
    dsimp only at hp
    obtain ⟨a, w, o, heq⟩ := foldl_markApplied_eq (Replica.path _ exec) _
    rw [heq] at hp
    have ht : Grown _ := hp.tree
    obtain ⟨hid, hgood⟩ := ht _ exec hexec
    refine (mem_applied_foldl_mark _ _ hx).imp_right ?_
    rintro ⟨b, hb, rfl⟩
    rw [← hid]
    exact walk_id_mem_ancestors ht _ exec hgood b hb

theorem applyRecoveredEntry_applied (pe : PersistEntry) (n : Replica) :
    (n.applyRecoveredEntry pe).applied = n.applied := by
  unfold Replica.applyRecoveredEntry
  cases pe with
  | block b =>
    dsimp only
    split
    · rfl
    split
    · rfl
    split <;> rfl
  | qc qc => rfl
  | applied id => dsimp only; split <;> rfl
  | voted h => dsimp only; split <;> rfl

theorem foldl_applyRecoveredEntry_applied : ∀ (log : List PersistEntry) (n : Replica),
    (log.foldl (fun n pe => n.applyRecoveredEntry pe) n).applied = n.applied
  | [], _ => rfl
  | pe :: log, n => (foldl_applyRecoveredEntry_applied log _).trans
      (applyRecoveredEntry_applied pe n)

/-- The blocks recovery takes for executed are blocks of the tree, or genesis. -/
structure Recovering (n : Replica) (r : Replica.Recovered) : Prop where
  applied : r.replica.applied = n.applied
  blocks : r.replica.blocks = n.blocks
  exec : IsGenesis r.exec ∨ r.exec.Sound

theorem Recovering.foldl_recoverQC (hn : Planted n) (qcs : List QC) (r : Replica.Recovered)
    (h : Recovering n r) : Recovering n (qcs.foldl (Replica.recoverQC E) r) := by
  refine Replica.foldl_recoverQC_keeps (fun _ _ _ h => ⟨h.applied, h.blocks, h.exec⟩)
    (fun r id gp h hgp => ?_) qcs r h
  rw [h.blocks] at hgp
  rw [activateTransitionLocked_eq]
  exact ⟨h.applied, h.blocks, (hn.tree _ gp hgp).2⟩

theorem blockAt_good (ht : Grown n.blocks) (id : BlockID) :
    IsGenesis (n.blockAt id) ∨ (n.blockAt id).Sound := by
  unfold Replica.blockAt
  cases hb : n.blocks.lookup id with
  | none => exact Or.inl ⟨rfl, rfl, rfl, rfl, rfl⟩
  | some b => exact (ht id b hb).2

theorem mem_applied_finishRecovery (hn : Planted n) (hx : x ∈ (n.finishRecovery E).applied) :
    x ∈ n.applied ∨ x ∈ (n.finishRecovery E).bExec.ancestors := by
  have hr := Recovering.foldl_recoverQC (E := E) hn n.recoverQCs
    { replica := n, qcHigh := n.qcHigh, lock := n.blockAt n.bLock, exec := n.blockAt n.bExec }
    ⟨rfl, rfl, blockAt_good hn.tree _⟩
  revert hx
  unfold Replica.finishRecovery Replica.markPathApplied
  dsimp only
  generalize n.recoverQCs.foldl (Replica.recoverQC E)
    { replica := n, qcHigh := n.qcHigh, lock := n.blockAt n.bLock, exec := n.blockAt n.bExec } = r
    at hr
  have ht : Grown r.replica.blocks := hr.blocks ▸ hn.tree
  -- the recorded watermark counts when it is higher
  generalize hm : (if r.replica.recoverExec ≠ noID then _ else r.exec) = mark
  have hmark : IsGenesis mark ∨ mark.Sound := by
    rw [← hm]
    split
    · split
      · exact hr.exec
      next wm hwm =>
        split
        · exact (ht _ wm hwm).2
        · exact hr.exec
    · exact hr.exec
  have hexec : ∀ b : Block, b = (if r.qcHigh.nodeID ∈ r.replica.blocks then mark
      else r.replica.blockAt genesisID) → IsGenesis b ∨ b.Sound := by
    rintro b rfl
    split
    · exact hmark
    · exact blockAt_good ht genesisID
  generalize (if r.qcHigh.nodeID ∈ r.replica.blocks then mark
    else r.replica.blockAt genesisID) = exec at hexec
  intro hx
  obtain ⟨a, w, o, heq⟩ := foldl_markApplied_eq ((Replica.path _ exec).takeWhile
    fun cur => cur.id ≠ noID) _
  rw [heq]
  rcases mem_applied_foldl_mark _ _ hx with hx | ⟨b, hb, rfl⟩
  · exact Or.inl (hr.applied ▸ hx)
  · exact Or.inr (walk_id_mem_ancestors ht _ exec (hexec exec rfl) b
      ((List.takeWhile_sublist _).subset hb))

/-- The executed prefix of a checkpoint file. -/
def executedIn : Option Replica.Checkpoint → List BlockID
  | none => []
  | some cp => cp.bExec.ancestors

/-- The executed prefixes a restart restores: the checkpoint's, and the one recovery ends with. -/
def Setup.restored (E : Env) (K : Setup) (checkpoint : Option Replica.Checkpoint)
    (log : List PersistEntry) : List BlockID :=
  match K.reopen E checkpoint log with
  | .error _ => []
  | .ok n => executedIn checkpoint ++ n.bExec.ancestors

/-- The replica with the checkpoint loaded, if there is one. -/
def Replica.load : Option Checkpoint → Replica → Replica
  | none, n => n
  | some cp, n => n.loadCheckpoint cp

variable {cp : Option Replica.Checkpoint} {K : Setup} {log : List PersistEntry}

theorem Setup.reopen_ok (hn : K.reopen E cp log = .ok n) :
    ∃ n₀, K.fresh E = .ok n₀ ∧ n = Replica.finishRecovery E
      { log.foldl (fun n pe => n.applyRecoveredEntry pe) (n₀.load cp) with
        logStore := K.durable } := by
  unfold Setup.reopen at hn
  split at hn
  · cases hn
  next n₀ hn₀ =>
    refine ⟨n₀, hn₀, (Except.ok.inj hn).symm.trans ?_⟩
    cases cp <;> rfl

theorem mem_applied_load (h : Newborn n)
    (hcp : ∀ c, cp = some c → ∀ b ∈ c.blocks, IsGenesis b ∨ b.Sound) :
    Planted (n.load cp) ∧ ∀ x ∈ (n.load cp).applied, x ∈ executedIn cp := by
  have hp := Planted.newborn h
  have hnone : ∀ {x : BlockID}, x ∉ n.applied := by
    intro x hx
    rw [h.applied] at hx
    cases hx
  cases cp with
  | none => exact ⟨hp, fun x hx => absurd hx hnone⟩
  | some c =>
    refine ⟨hp.loadCheckpoint (hcp c rfl), fun x hx => ?_⟩
    exact (mem_applied_loadCheckpoint hp (hcp c rfl) hx).resolve_left hnone

/-- **A mark found after a restart stands on the prefix restored.** -/
theorem reopen_applied (hn : K.reopen E cp log = .ok n)
    (hcp : ∀ c, cp = some c → ∀ b ∈ c.blocks, IsGenesis b ∨ b.Sound)
    (hlog : ∀ b, .block b ∈ log → b.Sound) : ∀ id ∈ n.applied, id ∈ K.restored E cp log := by
  intro id hid
  unfold Setup.restored
  rw [hn]
  obtain ⟨n₀, hn₀, rfl⟩ := K.reopen_ok hn
  obtain ⟨hp, hmarks⟩ := mem_applied_load (Newborn.fresh hn₀) hcp
  have hP := Planted.replay log _ hp hlog
  have hkeep := foldl_applyRecoveredEntry_applied log (n₀.load cp)
  refine List.mem_append.mpr ?_
  rcases mem_applied_finishRecovery (n := { log.foldl (fun n pe => n.applyRecoveredEntry pe)
      (n₀.load cp) with logStore := K.durable }) (hP.congr ⟨rfl, rfl, rfl, rfl⟩) hid with hx | hx
  · exact Or.inl (hmarks id (hkeep ▸ hx))
  · exact Or.inr hx

/-! ## 3. Callers -/

/-- Why `WaitCommitted` fails. -/
inductive WaitError where
  | unknownBlock
  | contextDone
deriving DecidableEq

/-- The ids a garbage collection deletes now. -/
def Replica.doomed (n : Replica) : List BlockID :=
  match n.blocks.lookup n.bExec with
  | none => []
  | some exec =>
    match n.gcBoundary exec with
    | none => []
    | some base => if base.id = n.gcBase then [] else n.garbage exec base

/-- A host with the callers of `WaitCommitted`. -/
structure Waiting where
  host : Host
  /-- blocked in `WaitCommitted`, each on the channel of its block -/
  blocked : List BlockID
  /-- what `WaitCommitted` returned, newest first; `none` is nil -/
  returned : List (BlockID × Option WaitError)
  /-- the command blocks of writes in progress -/
  targets : List BlockID
  /-- the command blocks of writes that returned nil -/
  acknowledged : List BlockID
  /-- every block executed on this replica, or on an executed prefix restored at recovery -/
  executed : List BlockID

/-- What happens to a host and its callers. -/
inductive WaitEvent where
  | host (e : Event)
  /-- `WaitCommitted(ctx, id)` is called -/
  | wait (id : BlockID)
  /-- the context of a blocked caller is done -/
  | expire (id : BlockID)
  /-- a write through `HotStuffClusterStore` calls `Propose(cmd)` -/
  | write (cmd : Bytes) (ctx : Ctx) (writes : List WriteOutcome)
  /-- a write whose `WaitCommitted` returned nil returns nil -/
  | finish (id : BlockID)

namespace Waiting

def wakes (out : List Effect) : List BlockID :=
  out.filterMap fun
    | .wake id => some id
    | _ => none

def execs (out : List Effect) : List BlockID :=
  out.filterMap fun
    | .exec id => some id
    | _ => none

def woken (E : Env) (s : Host) : Event → List BlockID
  | .call input ctx writes => wakes ((s.ready writes).handle E ctx input).out
  | .gc => wakes ({ s.node with out := [] } : Replica).gcLocked.1.out
  | _ => []

/-- The blocks an event executes or restores. -/
def reached (E : Env) (K : Setup) (s : Host) : Event → List BlockID
  | .call input ctx writes => execs ((s.ready writes).handle E ctx input).out
  | .restart => K.restored E s.checkpoint s.log
  | _ => []

def surviving (ids : List BlockID) : Event → List BlockID
  | .restart => []
  | _ => ids

/-- An event of the host: the callers whose channel it closes return nil. -/
def hosted (E : Env) (K : Setup) (e : Event) (s : Waiting) : Waiting :=
  { s with
    host := s.host.act E K e
    blocked := surviving (s.blocked.filter fun id => id ∉ woken E s.host e) e
    returned := (s.blocked.filter fun id => id ∈ woken E s.host e).map (·, none) ++ s.returned
    targets := surviving s.targets e
    executed := reached E K s.host e ++ s.executed }

/-- `WaitCommitted` up to the moment it blocks. -/
def waitCommitted (id : BlockID) (s : Waiting) : Waiting :=
  if id ∈ s.host.node.applied then { s with returned := (id, none) :: s.returned }
  else if id ∉ s.host.node.blocks then
    { s with returned := (id, some .unknownBlock) :: s.returned }
  else
    { s with
      host := { s.host with node := { s.host.node with
        notify := if id ∈ s.host.node.notify then s.host.node.notify
          else id :: s.host.node.notify } }
      blocked := id :: s.blocked }

def act (E : Env) (K : Setup) (s : Waiting) : WaitEvent → Waiting
  | .host e => s.hosted E K e
  | .wait id => s.waitCommitted id
  | .expire id =>
    { s with blocked := s.blocked.erase id, returned := (id, some .contextDone) :: s.returned }
  | .write cmd ctx writes =>
    let next := s.hosted E K (.call (.propose cmd) ctx writes)
    match ((s.host.ready writes).propose E ctx cmd).2 with
    | .error _ => next
    | .ok id => { next with targets := id :: next.targets }
  | .finish id =>
    { s with targets := s.targets.erase id, acknowledged := id :: s.acknowledged }

def Enabled (s : Waiting) : WaitEvent → Prop
  | .host e => s.host.Enabled e
  | .wait _ => s.host.node.panicked = false
  | .expire id => id ∈ s.blocked
  | .write _ _ _ => s.host.node.panicked = false
  | .finish id => id ∈ s.targets ∧ (id, none) ∈ s.returned

instance (s : Waiting) (e : WaitEvent) : Decidable (s.Enabled e) := by
  unfold Enabled
  split <;> infer_instance

/-- A host and its callers as a machine. -/
def machine (E : Env) (K : Setup) : Machine Waiting WaitEvent where
  enabled := fun s e => s.Enabled e
  act := fun s e => s.act E K e

def start (K : Setup) (n : Replica) : Waiting :=
  { host := Host.start K n, blocked := [], returned := [], targets := [], acknowledged := [],
    executed := [] }

/-- Nil is returned for executed blocks only, by `WaitCommitted` and by a write. -/
def Truthful (s : Waiting) : Prop :=
  (∀ id, (id, none) ∈ s.returned → id ∈ s.executed) ∧ ∀ id ∈ s.acknowledged, id ∈ s.executed

/-- No collection deletes a block that a caller waits for and that was never executed.  `gcLocked`
closes the channels of all blocks it deletes; nil is the right answer for those that were executed,
and for no others. -/
def Patient (s : Waiting) : WaitEvent → Prop
  | .host .gc => ∀ id ∈ s.blocked, id ∈ s.host.node.doomed → id ∈ s.executed
  | _ => True

/-! ## 4. Acknowledgements are sound but for deletions -/

variable {id x : BlockID} {E : Env} {K : Setup} {s : Waiting} {out : List Effect} {n : Replica}
  {e : Event}

theorem mem_wakes : id ∈ wakes out ↔ .wake id ∈ out := by
  unfold wakes
  rw [List.mem_filterMap]
  constructor
  · rintro ⟨e, he, hid⟩
    cases e <;> simp_all
  · exact fun h => ⟨_, h, rfl⟩

theorem mem_execs : id ∈ execs out ↔ .exec id ∈ out := by
  unfold execs
  rw [List.mem_filterMap]
  constructor
  · rintro ⟨e, he, hid⟩
    cases e <;> simp_all
  · exact fun h => ⟨_, h, rfl⟩

theorem dropBlock_wakes (hx : .wake x ∈ (n.dropBlock id).out) : .wake x ∈ n.out ∨ x = id := by
  unfold Replica.dropBlock at hx
  dsimp only at hx
  split at hx
  · rcases List.mem_cons.mp hx with hx | hx
    · exact Or.inr (Effect.wake.inj hx)
    · exact Or.inl hx
  · exact Or.inl hx

theorem dropBlock_applied (hx : x ∈ (n.dropBlock id).applied) : x ∈ n.applied := by
  unfold Replica.dropBlock at hx
  dsimp only at hx
  split at hx <;> exact (List.mem_filter.mp hx).1

theorem foldl_dropBlock_spec : ∀ (ids : List BlockID) (n : Replica) (x : BlockID),
    (.wake x ∈ (ids.foldl Replica.dropBlock n).out → .wake x ∈ n.out ∨ x ∈ ids) ∧
      (x ∈ (ids.foldl Replica.dropBlock n).applied → x ∈ n.applied)
  | [], _, _ => ⟨Or.inl, fun h => h⟩
  | id :: ids, n, x => by
    obtain ⟨hw, ha⟩ := foldl_dropBlock_spec ids (n.dropBlock id) x
    refine ⟨fun hx => ?_, fun hx => dropBlock_applied (ha hx)⟩
    rcases hw hx with hx | hx
    · rcases dropBlock_wakes hx with hx | rfl
      · exact Or.inl hx
      · exact Or.inr List.mem_cons_self
    · exact Or.inr (List.mem_cons_of_mem _ hx)

/-- A collection wakes the waiters of the blocks it deletes, and sets no mark. -/
theorem gcLocked_spec (n : Replica) (x : BlockID) :
    (.wake x ∈ n.gcLocked.1.out → .wake x ∈ n.out ∨ x ∈ n.doomed) ∧
      (x ∈ n.gcLocked.1.applied → x ∈ n.applied) := by
  unfold Replica.gcLocked Replica.doomed
  cases n.blocks.lookup n.bExec with
  | none => exact ⟨Or.inl, fun h => h⟩
  | some exec =>
    dsimp only
    cases n.gcBoundary exec with
    | none => exact ⟨Or.inl, fun h => h⟩
    | some base =>
      dsimp only
      by_cases hsame : base.id = n.gcBase
      · rw [if_pos hsame, if_pos hsame]
        exact ⟨Or.inl, fun h => h⟩
      · rw [if_neg hsame, if_neg hsame]
        exact foldl_dropBlock_spec (n.garbage exec base) n x

/-- The invariant of every run without an untimely deletion. -/
structure Sound (s : Waiting) : Prop where
  stocked : s.host.Stocked
  applied : ∀ id ∈ s.host.node.applied, id ∈ s.executed
  returned : ∀ id, (id, none) ∈ s.returned → id ∈ s.executed
  acknowledged : ∀ id ∈ s.acknowledged, id ∈ s.executed

theorem Sound.woken (h : s.Sound) (hp : s.Patient (.host e)) (hb : id ∈ s.blocked)
    (hid : id ∈ Waiting.woken E s.host e) : id ∈ reached E K s.host e ++ s.executed := by
  refine List.mem_append.mpr ?_
  cases e with
  | call input ctx writes =>
    have hp : Planted (s.host.ready writes) := h.stocked.node.congr ⟨rfl, rfl, rfl, rfl⟩
    exact Or.inl (mem_execs.mpr ((Accounted.handle hp rfl input).woken id (mem_wakes.mp hid)))
  | gc =>
    rcases (gcLocked_spec _ id).1 (mem_wakes.mp hid) with hx | hx
    · cases hx
    · exact Or.inr (hp id hb hx)
  | writeCheckpoint => exact absurd hid (by simp [Waiting.woken])
  | rotate => exact absurd hid (by simp [Waiting.woken])
  | restart => exact absurd hid (by simp [Waiting.woken])

theorem Sound.marks (h : s.Sound) (e : Event) :
    ∀ id ∈ (s.host.act E K e).node.applied, id ∈ reached E K s.host e ++ s.executed := by
  intro id hid
  refine List.mem_append.mpr ?_
  cases e with
  | call input ctx writes =>
    have hp : Planted (s.host.ready writes) := h.stocked.node.congr ⟨rfl, rfl, rfl, rfl⟩
    rcases (Accounted.handle hp rfl input).applied id hid with hx | hx
    · exact Or.inr (h.applied id hx)
    · exact Or.inl (mem_execs.mpr hx)
  | gc => exact Or.inr (h.applied id ((gcLocked_spec _ id).2 hid))
  | writeCheckpoint => exact Or.inr (h.applied id hid)
  | rotate => exact Or.inr (h.applied id hid)
  | restart =>
    unfold Host.act at hid
    dsimp only at hid
    split at hid
    · exact Or.inr (h.applied id hid)
    next n hn =>
      exact Or.inl (reopen_applied hn (fun c hc => h.stocked.files c (Or.inl hc)) h.stocked.log
        id hid)

theorem Sound.hosted (h : s.Sound) (hp : s.Patient (.host e)) :
    (s.hosted E K e).Sound where
  stocked := h.stocked.act e
  applied := h.marks e
  returned := by
    intro id hid
    rcases List.mem_append.mp hid with hid | hid
    · obtain ⟨x, hx, heq⟩ := List.mem_map.mp hid
      obtain rfl : x = id := congrArg Prod.fst heq
      obtain ⟨hb, hw⟩ := List.mem_filter.mp hx
      exact h.woken hp hb (by simpa using hw)
    · exact List.mem_append_right _ (h.returned id hid)
  acknowledged := fun id hid => List.mem_append_right _ (h.acknowledged id hid)

theorem Sound.waitCommitted (h : s.Sound) (id : BlockID) : (s.waitCommitted id).Sound := by
  unfold Waiting.waitCommitted
  split
  next happ =>
    refine ⟨h.stocked, h.applied, fun x hx => ?_, h.acknowledged⟩
    rcases List.mem_cons.mp hx with heq | hx
    · obtain rfl : x = id := congrArg Prod.fst heq
      exact h.applied x happ
    · exact h.returned x hx
  split
  · refine ⟨h.stocked, h.applied, fun x hx => ?_, h.acknowledged⟩
    rcases List.mem_cons.mp hx with heq | hx
    · exact absurd (congrArg Prod.snd heq) (by simp)
    · exact h.returned x hx
  · exact ⟨⟨h.stocked.node.congr ⟨rfl, rfl, rfl, rfl⟩, h.stocked.log, h.stocked.files⟩, h.applied,
      h.returned, h.acknowledged⟩

theorem Sound.act (h : s.Sound) {e : WaitEvent} (hen : s.Enabled e) (hp : s.Patient e) :
    (s.act E K e).Sound := by
  cases e with
  | host e => exact h.hosted hp
  | wait id => exact h.waitCommitted id
  | expire id =>
    refine ⟨h.stocked, h.applied, fun x hx => ?_, h.acknowledged⟩
    rcases List.mem_cons.mp hx with heq | hx
    · exact absurd (congrArg Prod.snd heq) (by simp)
    · exact h.returned x hx
  | write cmd ctx writes =>
    have hnext : (s.hosted E K (.call (.propose cmd) ctx writes)).Sound := h.hosted trivial
    unfold Waiting.act
    dsimp only
    split
    · exact hnext
    · exact { hnext with }
  | finish id =>
    refine ⟨h.stocked, h.applied, h.returned, fun x hx => ?_⟩
    rcases List.mem_cons.mp hx with rfl | hx
    · exact h.returned x hen.2
    · exact h.acknowledged x hx

/-- **Nil means executed** in every run in which no collection deletes a block that is waited for
and was never executed. -/
theorem wait_committed_sound {E : Env} {K : Setup} {n₀ : Replica} {s : Waiting}
    (h₀ : K.fresh E = .ok n₀)
    (hrun : ((machine E K).restrict Patient).Steps (start K n₀) s) : s.Truthful := by
  have hinv : s.Sound := by
    refine hrun.invariant (P := Sound) 
      (fun s e h (hen : s.Enabled e ∧ s.Patient e) => h.act hen.1 hen.2) ?_
    have happ : n₀.applied = [] := (Newborn.fresh h₀).applied
    refine ⟨Host.Stocked.start h₀, fun id hid => ?_, fun id hid => ?_, fun id hid => ?_⟩
    · exact absurd (happ ▸ hid : id ∈ []) (by simp)
    · exact absurd hid (by simp [start])
    · exact absurd hid (by simp [start])
  exact ⟨hinv.returned, hinv.acknowledged⟩

instance (s : Waiting) (e : WaitEvent) : Decidable (s.Patient e) := by
  unfold Patient
  split <;> infer_instance

instance (E : Env) (K : Setup) (s : Waiting) (e : WaitEvent) :
    Decidable ((machine E K).enabled s e) :=
  inferInstanceAs (Decidable (s.Enabled e))

instance (E : Env) (K : Setup) (s : Waiting) (e : WaitEvent) :
    Decidable (((machine E K).restrict Patient).enabled s e) :=
  inferInstanceAs (Decidable (s.Enabled e ∧ s.Patient e))

end Waiting

/-! ## 5. A write on a branch that is given up

`L0` leads view 0 and writes [1]; its proposal reaches nobody.  The others move to view 1, and
`L0` follows `L1` there. -/

namespace Forked

def written : BlockID := .digest 0 1 genesisID [1]

def c1 : BlockID := .digest 1 1 genesisID [2]
def c2 : BlockID := .digest 1 2 c1 [3]
def c3 : BlockID := .digest 1 3 c2 [4]
def c4 : BlockID := .digest 1 4 c3 [5]
def c5 : BlockID := .digest 1 5 c4 [6]

def qc (id : BlockID) : QC := Script.certify 0 id ["L1", "L2", "L3"]

/-- The view changes that make `L1` the leader of view 1. -/
def viewChanges : List ViewChange :=
  ["L1", "L2", "L3"].map fun sender =>
    { view := 1, epoch := 0, highQC := some Script.root, sender := sender,
      sig := (four false).priv sender }

/-- `L1` proposes in view 1. -/
def proposed (b : Block) : Waiting → WaitEvent := fun _ =>
  .host (.call (.deliver (.proposal { block := b, sender := "L1", viewChanges := viewChanges,
                                      sig := (four false).priv "L1" })) Move.still [])

def setup : Setup := Script.setup "L0" 1

abbrev machine : Machine Waiting WaitEvent := Waiting.machine plainEnv setup

def start : Waiting := Waiting.start setup (Script.opened plainEnv setup)

/-- The blocks of view 1, until `c2` is executed. -/
def newView : List (Waiting → WaitEvent) :=
  [proposed (Script.blockOf c1 Script.root 0), proposed (Script.blockOf c2 (qc c1) 0),
   proposed (Script.blockOf c3 (qc c2) 0), proposed (Script.blockOf c4 (qc c3) 0),
   proposed (Script.blockOf c5 (qc c4) 0)]

/-- A write waits through the change of view and a collection. -/
def lostWrite : List (Waiting → WaitEvent) :=
  [fun _ => .write [1] Move.still [], fun _ => .wait written] ++ newView ++
    [fun _ => .host .gc, fun _ => .finish written]

end Forked

namespace Waiting

/-- The same run with callers of blocks of the new view: the executed one is answered. -/
theorem wait_committed_sound_newView :
    let run := [fun _ => .write [1] Move.still []] ++ Forked.newView ++
      [fun _ => .wait Forked.c2, fun _ => .wait Forked.c3, fun _ => .host .gc]
    let s := (Forked.machine.restrict Patient).play Forked.start run
    s.returned = [(Forked.c2, none)] ∧ s.blocked = [Forked.c3] ∧
      s.host.node.gcBase = Forked.c1 ∧ s.Truthful :=
  ⟨by decide +kernel, by decide +kernel, by decide +kernel, wait_committed_sound
    (show _ = Except.ok (Script.opened plainEnv Forked.setup) from rfl)
    (Machine.steps_of_plays _ _ (by decide +kernel))⟩

/-- **A write that never took place is acknowledged.**  The collection after `c2` was executed
deletes the block of the write, and its caller is told nil. -/
theorem wait_committed_sound_fails :
    let s := Forked.machine.play Forked.start Forked.lostWrite
    Forked.machine.Steps Forked.start s ∧ s.acknowledged = [Forked.written] ∧
      s.returned = [(Forked.written, none)] ∧ s.executed = [Forked.c2, Forked.c1] ∧
      ¬ s.Truthful := by
  refine ⟨Machine.steps_of_plays _ _ (by decide +kernel), by decide +kernel, by decide +kernel,
    by decide +kernel, fun h => ?_⟩
  exact absurd (h.2 Forked.written (by decide +kernel)) (by decide +kernel)

end Waiting

end Cachey.HotStuff
