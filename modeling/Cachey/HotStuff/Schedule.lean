/-
# Schedules for a cluster

A schedule drives a cluster through one particular run.  It starts in `Cluster.start`, which IS
an initial state for every cluster, and is made of four kinds of moves: a replica proposes, a
replica suspects the view, the network hands over the last message one replica sent to another,
or the adversary sends a message of a Byzantine member, which may depend on what it has seen.
-/
import Cachey.HotStuff.System

namespace Cachey.HotStuff

/-! ## 1. Every cluster starts -/

theorem firstDuplicate_eq_none : ∀ (l seen : List String), l.Nodup → (∀ x ∈ l, x ∉ seen) →
    firstDuplicate seen l = none
  | [], _, _, _ => rfl
  | x :: l, seen, hn, hs => by
    obtain ⟨hx, hl⟩ := List.nodup_cons.mp hn
    rw [firstDuplicate, if_neg (hs x List.mem_cons_self)]
    refine firstDuplicate_eq_none l (x :: seen) hl fun y hy hmem => ?_
    rcases List.mem_cons.mp hmem with rfl | hmem
    · exact hx hy
    · exact hs y (List.mem_cons_of_mem _ hy) hmem

theorem Cluster.newReplica_isOk (E : Env) (K : Cluster) {r : String} (hr : r ∈ K.members) :
    ∃ n, newReplica E (K.config r) = .ok n := by
  have hid : (K.config r).id ≠ "" := fun h => K.named (h ▸ hr)
  have hlead : (K.config r).leader ≠ "" := fun h => K.named (h ▸ K.leader_mem)
  have hdup : firstDuplicate [] ((K.config r).id :: (K.config r).peers) = none := by
    refine firstDuplicate_eq_none _ _ ?_ (by simp)
    exact List.nodup_cons.mpr ⟨fun h => (K.nodup.mem_erase_iff.mp h).1 rfl, K.nodup.erase r⟩
  have hmem : (K.config r).leader ∈ (K.config r).id :: (K.config r).peers := by
    by_cases h : K.leader = r
    · exact h ▸ List.mem_cons_self
    · exact List.mem_cons_of_mem _ ((List.mem_erase_of_ne h).mpr K.leader_mem)
  unfold newReplica
  rw [if_neg hid]
  dsimp only
  rw [hdup]
  rw [if_neg hlead, if_neg (not_not.mpr hmem)]
  exact ⟨_, rfl⟩

/-- The replicas of the cluster, just started. -/
def Cluster.start (E : Env) (K : Cluster) : ClusterState where
  replica := fun r => (K.boot E r).getD default
  trace := []

theorem Cluster.init_start (E : Env) (K : Cluster) : ClusterState.Init E K (K.start E) := by
  refine ⟨rfl, fun r hr => ?_⟩
  obtain ⟨n, hn⟩ := K.newReplica_isOk E hr.1
  simp [Cluster.start, Cluster.boot, hn]

/-! ## 2. Moves -/

/-- The last message `src` sent to `dst`. -/
def ClusterState.lastSent (s : ClusterState) (src dst : String) : Option Message :=
  (s.journal src).findSome? fun e => match e with
    | .send peer m => if peer = dst then some m else none
    | _ => none

namespace Move

/-- A moment at which nothing outside changes. -/
def still : Ctx := { now := 0, scan := Iteration.asStored _, rescan := Iteration.asStored _ }

/-- `r` proposes a command. -/
def propose (r : String) (cmd : Bytes) (_ : ClusterState) : Label :=
  { actor := r, input := .propose cmd, ctx := still, writes := [] }

/-- `r` suspects its view. -/
def suspect (r : String) (_ : ClusterState) : Label :=
  { actor := r, input := .startViewChange, ctx := still, writes := [] }

/-- `dst` receives a message the adversary makes up from what it has seen. -/
def inject (dst : String) (m : ClusterState → Message) (s : ClusterState) : Label :=
  { actor := dst, input := .deliver (m s), ctx := still, writes := [] }

/-- `dst` receives what `src` last sent to it; a request nobody answers if there is nothing. -/
def relay (src dst : String) : ClusterState → Label :=
  inject dst fun s => (s.lastSent src dst).getD
    (.fetch { blockID := noID, dest := dst, sender := src })

end Move

/-! ## 3. Four replicas

Keys are their own signatures: nobody forges, because no step that forges is enabled. -/

def plainEnv : Env where
  sign := fun priv _ => priv
  verify := fun pub _ sig => pub = sig
  publicKey := id
  record := fun _ => none
  change := fun _ => none

/-- Four replicas, of which the last one may be Byzantine. -/
def four (byzantine : Bool) : Cluster where
  members := ["L0", "L1", "L2", "L3"]
  nodup := by decide
  named := by decide
  f := 1
  size := rfl
  byzantine := if byzantine then ["L3"] else []
  faults := by cases byzantine <;> decide
  leader := "L0"
  leader_mem := by decide
  priv := fun m => if m = "L0" then [1] else if m = "L1" then [2] else if m = "L2" then [3] else [4]
  durable := fun _ => false

namespace Script

def root : QC := (genesisBlock (four false).members).2

/-- A certificate signed by `voters`. -/
def certify (epoch : ℕ) (id : BlockID) (voters : List String) : QC :=
  { newQCEpoch epoch id id.height with
    votes := voters.foldl (fun m v => m.insert v ((four false).priv v)) ∅ }

/-- The block a digest was computed from, with its certificate and epoch. -/
def blockOf (id : BlockID) (qc : QC) (epoch : ℕ) : Block :=
  match id with
  | .digest v h p cmd =>
    { view := v, height := h, parent := p, id := id, cmd := cmd, justify := some qc,
      epoch := epoch }
  | .raw _ => (genesisBlock []).1

end Script

end Cachey.HotStuff
