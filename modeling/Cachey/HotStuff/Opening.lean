/-
# The first block of a view

A leader that takes over builds its first block two above its base (`freshBase`), or above the
tallest block it knows if that is higher.  The two are there so that the replicas, which vote only
above `vHeight`, can vote for it: the base is the highest certificate among the reports, and a vote
of an earlier view is thought to be at most one above it.

It need not be.  A certificate may be known to nobody but the leader that formed it, and that
leader has already voted for the block on top of it; nobody who reports has seen either.  So the
first block is above every earlier vote EXACTLY when none of them is more than one above the base,
unless the new leader's own tree reaches as high.

* §1  A replica that is active in a view after view 0 and has not built a block in it has its
      base fresh (`Primed`).
* §2  The height of the first block.
* §3  A leader's own vote for a block nobody has seen.
* §4  Whether the height of a proposal is above the leader's tree: unless the tree reaches the end
      of the `uint64` range.
-/
import Cachey.HotStuff.Leader
import Cachey.HotStuff.Live

namespace Cachey.HotStuff

/-- The view an id was hashed with. -/
def BlockID.view : BlockID → ℕ
  | raw _ => 0
  | digest v _ _ _ => v

/-! ## 1. Activity and the fresh base -/

/-- Active in a later view without a block of its own in it, the replica has a fresh base. -/
def Primed (built : List Block) (n : Replica) : Prop :=
  n.view = 0 ∨ (∃ b ∈ built, b.view = n.view) ∨ (n.active = true → n.freshBase = true)

theorem inert_primed (built : List Block) : Inert (Primed built) where
  write := by
    intro n m hn hm
    rw [hm]
    exact hn
  activate := fun _ _ => Or.inr (Or.inr fun _ => rfl)

variable {built : List Block} {n : Replica}

theorem Primed.mono {built' : List Block} (h : Primed built n) (hsub : ∀ b ∈ built, b ∈ built') :
    Primed built' n :=
  h.imp_right (Or.imp_left fun ⟨b, hb, hv⟩ => ⟨b, hsub b hb, hv⟩)

/-- A call primes the views it enters, and uses up the base of the one it builds in. -/
theorem Primed.handle {E : Env} {C : Ctx} (h : Primed built n) (inp : Input)
    (hrun : (n.handle E C inp).panicked = false) :
    Primed (n.building inp ++ built) (n.handle E C inp) := by
  have hmono := h.mono fun b hb => List.mem_append_right (n.building inp) hb
  refine (inert_primed _).handle inp hmono (fun b hb => ?_) fun view epoch he hlt => ?_
  · refine Or.inr (Or.inl ⟨b, List.mem_append_left _ hb, ?_⟩)
    obtain ⟨cmd, -, rfl, -⟩ := Replica.mem_building hb
    rfl
  · -- entering a view ends the activity, unless it ends the process
    rw [enterViewLockedEpoch_of_lt hlt]
    refine Or.inr (Or.inr fun hact => ?_)
    cases hl : n.leaderOfEpoch epoch view with
    | none => exact absurd ((handle_panicked he hlt hl).symm.trans hrun) (by simp)
    | some l => simp [hl] at hact

namespace Audit

variable {E : Env} {K : Cluster} {s : Audit}

theorem primed {s₀ : ClusterState} (h₀ : ClusterState.Init E K s₀)
    (hrun : (machine E K).Steps (start s₀) s) {r : String} (hr : K.Correct r)
    (hlive : (s.cluster.replica r).panicked = false) :
    Primed (s.built r) (s.cluster.replica r) := by
  refine hrun.invariant (P := fun s => ∀ r, K.Correct r →
    (s.cluster.replica r).panicked = false → Primed (s.built r) (s.cluster.replica r))
    (fun s t h hen => ?_) (fun r hr _ => Or.inl ?_) r hr hlive
  · cases t with
    | step l =>
      intro r hr
      change (if r = l.actor then _ else s.cluster.replica r).panicked = false →
        Primed (note l.actor _ s.built r) (if r = l.actor then _ else s.cluster.replica r)
      unfold note
      by_cases heq : r = l.actor
      · subst heq
        simp only [if_true]
        have hready : Primed (s.built l.actor) (s.ready l) :=
          (inert_primed _).write (h l.actor hr hen.1.2.1) rfl
        exact hready.handle l.input
      · simp only [if_neg heq]
        exact h r hr
    | collect r' =>
      intro r hr
      change (if r = r' then _ else s.cluster.replica r).panicked = false →
        Primed _ (if r = r' then _ else s.cluster.replica r)
      by_cases heq : r = r'
      · subst heq
        rw [if_pos rfl]
        exact fun _ => (inert_primed _).gcLocked (h r hr hen.2)
      · rw [if_neg heq]
        exact h r hr
  · exact (Inaugural.boot (h₀.2 r hr)).view

/-! ## 2. The height of the first block

The height is a maximum of two numbers, two above the base and one above the tallest block known.
Votes are compared with it one by one; neither number knows anything of votes the leader has not
heard of. -/

/-- The heights at which correct replicas have voted for blocks of views before `v`, the leaders'
votes for their own blocks included. -/
def earlier (K : Cluster) (s : Audit) (v : ℕ) : List ℕ :=
  ((s.cluster.trace.filter fun e => K.Correct e.1).filterMap fun e => e.2.vote).filterMap fun x =>
    if x.2.1.view < v then some x.1 else none

/-- **A view starts above every earlier vote** exactly if no earlier vote is more than one above
the base its leader has adopted, or the leader's tree reaches as high. -/
theorem view_starts_above_iff {s₀ : ClusterState} (h₀ : ClusterState.Init E K s₀)
    (hrun : (machine E K).Steps (start s₀) s) {l : Label} (hen : s.Enabled E K (.step l))
    {b : Block} (hb : b ∈ (s.ready l).building l.input) (hv : 0 < b.view)
    (hfirst : ∀ c ∈ s.built l.actor, c.view ≠ b.view)
    (hroom : (s.ready l).highestBlockHeightLocked + 2 < 2 ^ 64 ∧
      (s.ready l).heightOf (s.ready l).head + 2 < 2 ^ 64) :
    (∀ h ∈ s.earlier K b.view, h < b.height) ↔
      ∀ h ∈ s.earlier K b.view, h ≤ (s.ready l).heightOf (s.ready l).head + 1 ∨
        h ≤ (s.ready l).highestBlockHeightLocked := by
  have hprimed := primed h₀ hrun hen.1.1 hen.1.2.1
  obtain ⟨cmd, -, rfl, -, hactive, -⟩ := Replica.mem_building hb
  have hfresh : (s.ready l).freshBase = true := by
    rcases hprimed with h | ⟨c, hc, hcv⟩ | h
    · exact absurd h (by exact Nat.ne_of_gt hv)
    · exact absurd hcv (hfirst c hc)
    · exact h hactive
  have hheight : ∀ h : ℕ, h < ((s.ready l).nextBlock cmd).height ↔
      h ≤ (s.ready l).heightOf (s.ready l).head + 1 ∨
        h ≤ (s.ready l).highestBlockHeightLocked := by
    intro h
    change h < (s.ready l).proposalHeight ↔ _
    unfold Replica.proposalHeight u64
    rw [hfresh]
    simp only [if_true]
    rw [Nat.mod_eq_of_lt hroom.2, Nat.mod_eq_of_lt (by omega)]
    split <;> omega
  exact forall₂_congr fun h _ => hheight h

/-! ## 3. A certificate only its leader knows

`L0` certifies a block with the votes of `L2` and `L3` and, in the second script, builds the next
one on top.  No message of `L0` arrives any more; `L1` takes over with the reports of `L2` and
`L3`, which know no certificate but that of genesis. -/

namespace Handover

/-- `L0` proposes once, or twice, and `L1` takes over. -/
def script (twice : Bool) : List (Audit → Turn) :=
  ([Move.propose "L0" [7], Move.relay "L0" "L2", Move.relay "L0" "L3", Move.relay "L2" "L0",
      Move.relay "L3" "L0"] ++ (if twice then [Move.propose "L0" [8]] else []) ++
    [Move.suspect "L1", Move.suspect "L2", Move.suspect "L3", Move.relay "L2" "L1",
      Move.relay "L3" "L1"]).map fun m s => .step (m s.cluster)

/-- The cluster at the moment `L1` has taken over. -/
def after (twice : Bool) : Audit :=
  (machine plainEnv (four false)).play (start ((four false).start plainEnv)) (script twice)

/-- `L1` proposes. -/
def opening : Label := Move.propose "L1" [9] ((four false).start plainEnv)

def first (twice : Bool) : Block := ((after twice).ready opening).nextBlock [9]

end Handover

theorem view_starts_above_once :
    (Handover.first false).view = 1 ∧ (Handover.after false).earlier (four false) 1 = [1, 1, 1] ∧
      ∀ h ∈ (Handover.after false).earlier (four false) (Handover.first false).view,
        h < (Handover.first false).height :=
  ⟨by decide +kernel, by decide +kernel,
    (view_starts_above_iff (Cluster.init_start plainEnv (four false))
      (Machine.steps_of_plays (Handover.script false) _ (by decide +kernel))
      (l := Handover.opening) (b := Handover.first false) (by decide +kernel) (by decide +kernel)
      (by decide +kernel) (by decide +kernel) (by decide +kernel)).mpr (by decide +kernel)⟩

/-- **A view that starts no higher than an earlier vote**: `L0` has voted for its second block at
height 2, and the first block of view 1 has height 2. -/
theorem view_starts_above_fails :
    ClusterState.Init plainEnv (four false) ((four false).start plainEnv) ∧
      (machine plainEnv (four false)).Steps (start ((four false).start plainEnv))
        (Handover.after true) ∧
      (Handover.after true).Enabled plainEnv (four false) (.step Handover.opening) ∧
      Handover.first true ∈ ((Handover.after true).ready Handover.opening).building
        Handover.opening.input ∧
      (Handover.first true).view = 1 ∧ (∀ c ∈ (Handover.after true).built "L1", c.view ≠ 1) ∧
      2 ∈ (Handover.after true).earlier (four false) 1 ∧ (Handover.first true).height = 2 :=
  ⟨Cluster.init_start plainEnv (four false), Machine.steps_of_plays _ _ (by decide +kernel),
    by decide +kernel, by decide +kernel, by decide +kernel, by decide +kernel, by decide +kernel,
    by decide +kernel⟩

end Audit

/-! ## 4. The end of the range

The height of a proposal is computed in `uint64`, from the head and from the tallest block of the
tree.  A follower votes for every height above its `vHeight`, so a Byzantine leader chooses how
tall the tree of a correct replica is. -/

theorem foldl_max_lt {m : ℕ} : ∀ (l : List Block) (k : ℕ), k < m → (∀ b ∈ l, b.height < m) →
    l.foldl (fun maxH b => if b.height > maxH then b.height else maxH) k < m
  | [], _, hk, _ => hk
  | b :: l, k, hk, hl => by
    rw [List.foldl_cons]
    refine foldl_max_lt l _ ?_ fun c hc => hl c (List.mem_cons_of_mem _ hc)
    split
    · exact hl b List.mem_cons_self
    · exact hk

namespace Replica

variable {n : Replica}

theorem highest_lt {m : ℕ} (hm : 0 < m)
    (h : ∀ id c, n.blocks.lookup id = some c → c.height < m) : n.highestBlockHeightLocked < m := by
  refine foldl_max_lt _ 0 hm fun c hc => ?_
  obtain ⟨id, hid⟩ := GoMap.mem_values_iff.mp hc
  exact h id c hid

theorem le_highest {id : BlockID} {c : Block} (h : n.blocks.lookup id = some c) :
    c.height ≤ n.highestBlockHeightLocked :=
  (foldl_max_ge n.blocks.values 0).2 c (GoMap.mem_values_of_lookup h)

theorem proposalHeight_lt : n.proposalHeight < 2 ^ 64 := by
  have hlt (k : ℕ) : u64 k < 2 ^ 64 := Nat.mod_lt k (Nat.two_pow_pos 64)
  unfold proposalHeight
  dsimp only
  generalize (if n.freshBase = true then 2 else 1) = skip
  split <;> exact hlt _

/-- **A proposal is above its parent and above every block of its leader's tree** exactly when no
block of the tree has the last height there is. -/
theorem proposed_above_iff {inp : Input} {b : Block} (hb : b ∈ n.building inp) :
    (n.heightOf b.parent < b.height ∧
        ∀ id c, n.blocks.lookup id = some c → c.height < b.height) ↔
      ∀ id c, n.blocks.lookup id = some c → c.height < 2 ^ 64 - 1 := by
  obtain ⟨cmd, -, rfl, -⟩ := mem_building hb
  change (n.heightOf n.head < n.proposalHeight ∧
    ∀ id c, n.blocks.lookup id = some c → c.height < n.proposalHeight) ↔ _
  constructor
  · rintro ⟨-, h⟩ id c hc
    have hlt := h id c hc
    have hrange := n.proposalHeight_lt
    omega
  · intro h
    have habove : n.highestBlockHeightLocked < n.proposalHeight :=
      highest_lt_proposalHeight (by have := highest_lt (by decide) h; omega)
    refine ⟨?_, fun id c hc => (le_highest hc).trans_lt habove⟩
    unfold heightOf
    cases hp : n.blocks.lookup n.head with
    | none => exact (Nat.zero_le _).trans_lt habove
    | some p => exact (le_highest hp).trans_lt habove

end Replica

/-! `L3` is Byzantine and leads view 0.  It proposes a block of the last height to `L0`; then the
correct replicas suspect it and `L0` takes over. -/

namespace LastHeight

/-- The cluster of four with its Byzantine member as the first leader. -/
def cluster : Cluster := { four true with leader := "L3", leader_mem := by decide }

/-- The block of the last height, on top of genesis. -/
def top : Block where
  view := 0
  height := 2 ^ 64 - 1
  parent := genesisID
  id := blockID 0 (2 ^ 64 - 1) genesisID [7]
  cmd := [7]
  justify := some (genesisBlock cluster.members).2
  epoch := 0

/-- `L3` proposes it to `L0`, or does not; `L0` takes over. -/
def script (proposed : Bool) : List (ClusterState → Turn) :=
  ((if proposed then [Move.inject "L0" fun _ => .proposal
      { block := top, sender := "L3", viewChanges := [], sig := cluster.priv "L3" }] else []) ++
    [Move.suspect "L0", Move.suspect "L1", Move.suspect "L2", Move.relay "L1" "L0",
      Move.relay "L2" "L0"]).map fun m s => .step (m s)

/-- The cluster when `L0` has taken over. -/
def after (proposed : Bool) : ClusterState :=
  (ClusterState.live plainEnv cluster).play (cluster.start plainEnv) (script proposed)

/-- `L0` proposes. -/
def opening : Label := Move.propose "L0" [9] (cluster.start plainEnv)

def first (proposed : Bool) : Block := ((after proposed).ready opening).nextBlock [9]

end LastHeight

theorem proposed_above_afterGenesis :
    (LastHeight.first false).height = 2 ∧
      ∀ id c, ((LastHeight.after false).ready LastHeight.opening).blocks.lookup id = some c →
        c.height < (LastHeight.first false).height := by
  have hb : LastHeight.first false ∈
      ((LastHeight.after false).ready LastHeight.opening).building LastHeight.opening.input := by
    decide +kernel
  refine ⟨by decide +kernel, ((Replica.proposed_above_iff hb).mpr fun id c hc => ?_).2⟩
  have hlow : ∀ c ∈ ((LastHeight.after false).ready LastHeight.opening).blocks.values,
      c.height < 2 ^ 64 - 1 := by
    decide +kernel
  exact hlow c (GoMap.mem_values_of_lookup hc)

/-- **A height that wraps**: `L0` has the block of the last height in its tree, and its own first
block of view 1 has height 0, that of its parent. -/
theorem proposed_above_fails :
    ClusterState.Init plainEnv LastHeight.cluster (LastHeight.cluster.start plainEnv) ∧
      (ClusterState.live plainEnv LastHeight.cluster).Steps
        (LastHeight.cluster.start plainEnv) (LastHeight.after true) ∧
      (LastHeight.after true).Able plainEnv LastHeight.cluster (.step LastHeight.opening) ∧
      LastHeight.first true ∈ ((LastHeight.after true).ready LastHeight.opening).building
        LastHeight.opening.input ∧
      (LastHeight.first true).height = 0 ∧ (LastHeight.first true).parent = genesisID ∧
      ((LastHeight.after true).ready LastHeight.opening).blocks.lookup LastHeight.top.id =
        some LastHeight.top ∧ LastHeight.top.height = 2 ^ 64 - 1 :=
  ⟨Cluster.init_start plainEnv LastHeight.cluster, Machine.steps_of_plays _ _ (by decide +kernel),
    by decide +kernel, by decide +kernel, by decide +kernel, by decide +kernel, by decide +kernel,
    rfl⟩

end Cachey.HotStuff
