/-
# The validator sets of a running replica

`activateTransitionLocked` (`epoch.go`) writes the set of an epoch when a membership block is
committed, and computes it from the epoch the block CLAIMS.  The comments promise that a set is
written once and that an old certificate stays verifiable.

A block claims the epoch that counts the transitions at least three blocks below it.  Two
transitions that follow each other more closely claim the SAME epoch, and the set that the first one
wrote is replaced by the second one, which was computed without it.  So it is the spacing of the
transitions on the committed branch that decides, and the condition below says so: of the
transitions that are due in a call, each opens an epoch that has no set yet, and no two of them open
the same one.

* §1  Sets that are kept, and with them certificates.
* §2  A call in which the due transitions open epochs of their own keeps the sets
      (`SetsKept.handle`).
* §3  The life of a replica, with all the blocks that ever stood in its tree (`Life`): in every
      run whose steps meet `Life.Spaced`, sets and certificates keep.
* §4  TWO transitions of one epoch, one block apart: the second one replaces the set of the first.
-/
import Cachey.HotStuff.Commits
import Cachey.HotStuff.KnownSets
import Cachey.HotStuff.Script

namespace Cachey.HotStuff

variable {E : Env} {n n' : Replica}

/-! ## 1. Sets and certificates that are kept -/

/-- Every set of `sets` is one of `sets'`. -/
def SetsKept (sets sets' : GoMap Nat ValidatorSet) : Prop :=
  ∀ e S, sets.lookup e = some S → sets'.lookup e = some S

theorem SetsKept.refl (sets : GoMap Nat ValidatorSet) : SetsKept sets sets := fun _ _ h => h

theorem SetsKept.trans {a b c : GoMap Nat ValidatorSet} (h₁ : SetsKept a b) (h₂ : SetsKept b c) :
    SetsKept a c :=
  fun e S h => h₂ e S (h₁ e S h)

/-- A certificate stays valid when the sets are kept and its block, if present, does not
disagree. -/
theorem qcValid_of_kept {qc : QC} (h : n.qcValid E qc = true) (hsets : SetsKept n.sets n'.sets)
    (hagree : qc.nodeID ≠ genesisID → n'.contradicts qc = false) : n'.qcValid E qc = true := by
  by_cases hg : qc.nodeID = genesisID
  · rw [Replica.qcValid, if_pos hg] at h ⊢
    exact h
  · obtain ⟨hq, _⟩ := (qcValid_iff hg).mp h
    refine (qcValid_iff hg).mpr ⟨?_, hagree hg⟩
    unfold QC.hasQuorum at hq ⊢
    cases hS : n.sets.lookup qc.epoch with
    | none => simp [hS] at hq
    | some S =>
      rw [hS] at hq
      rw [hsets _ S hS]
      exact hq

/-! ## 2. One call

One call may commit several transitions, and a later one may start from a set that an earlier one
has just written.  So the due transitions are compared with each other, not only with the sets there
are. -/

namespace Replica

/-- **Every transition that is due opens an epoch of its own**: one that has no set yet, and that no
other due transition opens.  (The same change of the same epoch, in another block, yields the same
set.) -/
def OpensOwn (E : Env) (C : Ctx) (inp : Input) (n : Replica) : Prop :=
  ∀ x ∈ n.due E C inp, n.sets.lookup x.opens = none ∧
    ∀ y ∈ n.due E C inp, x.opens = y.opens → x.epoch = y.epoch ∧ x.cmd = y.cmd

instance (E : Env) (C : Ctx) (inp : Input) (n : Replica) : Decidable (n.OpensOwn E C inp) :=
  inferInstanceAs (Decidable (∀ _ ∈ _, _))

end Replica

theorem membershipOf_congr {x y : Block} (h : x.cmd = y.cmd) :
    membershipOf E x = membershipOf E y := by
  unfold membershipOf
  rw [h]

/-- What the sets are in the course of a call: the old ones are kept, and a new one was opened by a
due transition, from a set that is still there. -/
structure Opening (E : Env) (C : Ctx) (inp : Input) (n : Replica) (c : GoMap Nat ValidatorSet × Nat) :
    Prop where
  kept : SetsKept n.sets c.1
  opened : ∀ e S, c.1.lookup e = some S → n.sets.lookup e = some S ∨
    ∃ x ∈ n.due E C inp, e = x.opens ∧ ∃ mc old, membershipOf E x = some mc ∧
      c.1.lookup x.epoch = some old ∧ old.apply mc = some S

theorem Opening.insert {C : Ctx} {inp : Input} {c : GoMap Nat ValidatorSet × Nat}
    (h : Opening E C inp n c) (hown : n.OpensOwn E C inp) {x : Block} (hx : x ∈ n.due E C inp)
    {mc : MembershipChange} {old ns : ValidatorSet} (hmc : membershipOf E x = some mc)
    (hold : c.1.lookup x.epoch = some old) (hns : old.apply mc = some ns) :
    Opening E C inp n (c.1.insert x.opens ns, x.opens) := by
  have hsame : ∀ S, c.1.lookup x.opens = some S → S = ns := by
    intro S hS
    rcases h.opened _ S hS with hthere | ⟨y, hy, hxy, mc', old', hmc', hold', hns'⟩
    · rw [(hown x hx).1] at hthere
      cases hthere
    · obtain ⟨hep, hcmd⟩ := (hown x hx).2 y hy hxy
      rw [← membershipOf_congr hcmd, hmc] at hmc'
      rw [← hep, hold] at hold'
      obtain rfl := Option.some.inj hmc'
      obtain rfl := Option.some.inj hold'
      exact Option.some.inj (hns'.symm.trans hns)
  have hkeep : SetsKept c.1 (c.1.insert x.opens ns) := by
    intro e S hS
    rw [GoMap.lookup_insert_of]
    split
    next heq => rw [hsame S (heq ▸ hS)]
    next => exact hS
  refine ⟨h.kept.trans hkeep, fun e S hS => ?_⟩
  rw [GoMap.lookup_insert_of] at hS
  split at hS
  next heq =>
    exact Or.inr ⟨x, hx, heq, mc, old, hmc, hkeep _ _ hold, hns.trans hS⟩
  next =>
    refine (h.opened e S hS).imp_right ?_
    rintro ⟨y, hy, hye, mc', old', hmc', hold', hns'⟩
    exact ⟨y, hy, hye, mc', old', hmc', hkeep _ _ hold', hns'⟩

/-- **A call keeps the sets** if the transitions that are due open epochs of their own. -/
theorem SetsKept.handle {C : Ctx} {inp : Input} (hp : Planted n) (hout : n.out = [])
    (hidx : Indexed n.sets) (hown : n.OpensOwn E C inp) :
    SetsKept n.sets (n.handle E C inp).sets :=
  (hp.transitions (Q := Opening E C inp n) hout hidx
    (fun _ _ hx _ _ _ hmc hold hns hc => hc.insert hown hx hmc hold hns)
    ⟨SetsKept.refl _, fun _ _ hS => Or.inl hS⟩).kept

/-! ## 3. The life of a replica -/

/-- A host whose replica runs, with every block that has stood in its tree since it was
opened. -/
structure Life where
  host : Host
  seen : List Block

namespace Life

/-- The replica is opened, at the first start or at a restart. -/
def opened (s : Host) : Life := { host := s, seen := s.node.blocks.values }

/-- An event of the running replica. -/
def act (E : Env) (K : Setup) (s : Life) (e : Event) : Life :=
  { host := s.host.act E K e, seen := (s.host.act E K e).node.blocks.values ++ s.seen }

/-- The running replica as a machine: calls and collections. -/
abbrev machine (E : Env) (K : Setup) : Machine Life Event where
  enabled := fun s e => s.host.Enabled e ∧ e.live = true
  act := fun s e => s.act E K e

/-- **The condition on a step**: the transitions that are due open epochs of their own, and no
block comes back under another epoch.  The second part is about another way to lose a certificate:
the epoch is not part of a block's digest, and a block that was collected may be offered again. -/
def Spaced (E : Env) (s : Life) : Event → Prop
  | .call input ctx writes =>
    let n := s.host.ready writes
    n.OpensOwn E ctx input ∧
      ∀ b ∈ (n.incoming E ctx input).filter (fun b => b.id ∉ n.blocks) ++ n.building input,
        ∀ x ∈ s.seen, x.id = b.id → x.epoch = b.epoch
  | _ => True

instance (E : Env) (s : Life) (e : Event) : Decidable (s.Spaced E e) := by
  unfold Spaced
  split <;> infer_instance

instance (E : Env) (K : Setup) (s : Life) (e : Event) :
    Decidable (((machine E K).restrict (Spaced E)).enabled s e) :=
  inferInstanceAs (Decidable ((s.host.Enabled e ∧ e.live = true) ∧ s.Spaced E e))

/-- What holds since the state `s`. -/
structure Since (s t : Life) : Prop where
  stocked : t.host.Stocked
  indexed : Indexed t.host.node.sets
  sets : SetsKept s.host.node.sets t.host.node.sets
  seen : ∀ x ∈ s.host.node.blocks.values, x ∈ t.seen
  epochs : ∀ x ∈ t.seen, ∀ b, t.host.node.blocks.lookup x.id = some b → x.epoch = b.epoch
  tree : ∀ id b, t.host.node.blocks.lookup id = some b → b ∈ t.seen

variable {E : Env} {K : Setup}

theorem Since.indexed_act {s t : Life} (h : Since s t) {e : Event} (hl : e.live = true) :
    Indexed (t.host.act E K e).node.sets := by
  cases e with
  | call input ctx writes =>
    have hp : Planted (t.host.ready writes) := h.stocked.node.congr ⟨rfl, rfl, rfl, rfl⟩
    exact indexed_iff.mpr
      (AllSets.handle ownEpoch_law hp rfl (indexed_iff.mp h.indexed) ctx input)
  | gc =>
    change Indexed t.host.node.gcLocked.1.sets
    rw [(gcLocked_sets t.host.node).1]
    exact h.indexed
  | writeCheckpoint => exact absurd hl (by simp [Event.live])
  | rotate => exact absurd hl (by simp [Event.live])
  | restart => exact absurd hl (by simp [Event.live])

theorem Since.act {s t : Life} (h : Since s t) {e : Event} (hl : e.live = true)
    (hs : t.Spaced E e) : Since s (t.act E K e) := by
  have hstocked : (t.host.act E K e).Stocked := h.stocked.act e
  have hindexed := h.indexed_act (E := E) (K := K) hl
  have htree : ∀ id b, (t.host.act E K e).node.blocks.lookup id = some b → b ∈ (t.act E K e).seen :=
    fun id b hb => List.mem_append_left _ (GoMap.mem_values_of_lookup hb)
  have hseen : ∀ x ∈ s.host.node.blocks.values, x ∈ (t.act E K e).seen :=
    fun x hx => List.mem_append_right _ (h.seen x hx)
  -- a block of the new tree was there before, or agrees with everything seen
  suffices hstep : SetsKept t.host.node.sets (t.host.act E K e).node.sets ∧
      ∀ id b, (t.host.act E K e).node.blocks.lookup id = some b →
        t.host.node.blocks.lookup id = some b ∨ ∀ x ∈ t.seen, x.id = b.id → x.epoch = b.epoch by
    refine ⟨hstocked, hindexed, h.sets.trans hstep.1, hseen, ?_, htree⟩
    intro x hx b hb
    rcases List.mem_append.mp hx with hx | hx
    · obtain ⟨id, hid⟩ := GoMap.mem_values_iff.mp hx
      have hxid := (hstocked.node.tree id x hid).1
      rw [hxid] at hb
      rw [Option.some.inj (hid.symm.trans hb)]
    · rcases hstep.2 x.id b hb with hold | hnew
      · exact h.epochs x hx b hold
      · exact hnew x hx (hstocked.node.tree _ b hb).1.symm
  cases e with
  | call input ctx writes =>
    obtain ⟨hopen, hback⟩ := hs
    have hp : Planted (t.host.ready writes) := h.stocked.node.congr ⟨rfl, rfl, rfl, rfl⟩
    refine ⟨SetsKept.handle hp rfl h.indexed hopen, fun id b hb => ?_⟩
    · rcases (handle_moves hp.parked input).1.blocks_from hb with hold | ⟨hin, hnew⟩ | hown
      · exact Or.inl hold
      · refine Or.inr (hback b (List.mem_append_left _ (List.mem_filter.mpr ⟨hin, ?_⟩)))
        simpa using hnew
      · exact Or.inr (hback b (List.mem_append_right _ hown))
  | gc =>
    rcases gcLocked_cases t.host.node with heq | ⟨exec, base, cp, _, _, c⟩
    · have : (t.host.act E K .gc).node = t.host.node := congrArg Prod.fst heq
      rw [this]
      exact ⟨SetsKept.refl _, fun _ _ hb => Or.inl hb⟩
    · refine ⟨?_, fun id b hb => Or.inl (c.sub hb)⟩
      have : (t.host.act E K .gc).node.sets = t.host.node.sets := c.sets
      rw [this]
      exact SetsKept.refl _
  | writeCheckpoint => exact absurd hl (by simp [Event.live])
  | rotate => exact absurd hl (by simp [Event.live])
  | restart => exact absurd hl (by simp [Event.live])

/-- **Sets are written once and certificates keep**, in every run whose steps are spaced.

The host is any that a run can lead to, restarts included, and the replica runs on from there; the
two states are any two of that run.  A garbage collection needs no condition: it deletes blocks and
no sets, and a certificate of a deleted block is judged by the sets alone. -/
theorem sets_write_once {n₀ : Replica} {s₀ : Host} {s s' : Life} (h₀ : K.fresh E = .ok n₀)
    (hopen : (Host.machine E K).Steps (Host.start K n₀) s₀)
    (hrun : ((machine E K).restrict (Spaced E)).Steps (opened s₀) s)
    (hrun' : ((machine E K).restrict (Spaced E)).Steps s s') :
    (∀ e S, s.host.node.sets.lookup e = some S → s'.host.node.sets.lookup e = some S) ∧
      ∀ qc, qc.nodeID ∈ s.host.node.blocks → s.host.node.qcValid E qc = true →
        s'.host.node.qcValid E qc = true := by
  have hbegin : Since (opened s₀) (opened s₀) := by
    have hst : s₀.Stocked :=
      hopen.invariant (fun _ e h _ => h.act e) (Host.Stocked.start h₀)
    refine ⟨hst, indexed_iff.mpr (Host.ownEpoch h₀ hopen), SetsKept.refl _, fun _ h => h, ?_,
      fun _ b hb => GoMap.mem_values_of_lookup hb⟩
    intro x hx b hb
    obtain ⟨id, hid⟩ := GoMap.mem_values_iff.mp hx
    rw [(hst.node.tree id x hid).1] at hb
    rw [Option.some.inj (hid.symm.trans hb)]
  have hs : Since (opened s₀) s := hrun.invariant
    (fun t e h (hen : (t.host.Enabled e ∧ e.live = true) ∧ t.Spaced E e) =>
      h.act hen.1.2 hen.2) hbegin
  have hself : Since s s := ⟨hs.stocked, hs.indexed, SetsKept.refl _, fun x hx => by
    obtain ⟨id, hid⟩ := GoMap.mem_values_iff.mp hx
    exact hs.tree id x hid, hs.epochs, hs.tree⟩
  have hs' : Since s s' := hrun'.invariant
    (fun t e h (hen : (t.host.Enabled e ∧ e.live = true) ∧ t.Spaced E e) =>
      h.act hen.1.2 hen.2) hself
  refine ⟨hs'.sets, fun qc hmem hval => qcValid_of_kept hval hs'.sets fun hg => ?_⟩
  obtain ⟨b, hb⟩ := GoMap.mem_iff_lookup.mp hmem
  obtain ⟨hh, hep⟩ := hs.stocked.node.tree.certified hval hb
  unfold Replica.contradicts
  split
  · rfl
  next b' hb' =>
    have hid := (hs.stocked.node.tree _ b hb).1
    have hep' := hs'.epochs b (hs'.seen b (GoMap.mem_values_of_lookup hb)) b' (hid ▸ hb')
    have hh' : b'.height = b.height :=
      (hs'.stocked.node.tree.height hb').trans (hs.stocked.node.tree.height hb).symm
    simp [hh, hep, hh', hep']

/-! ## 4. Two transitions of one epoch

`L1` follows a chain that removes `L3` in block 1 and `L2` in the block after it.  Both blocks claim
epoch 0, so both commits write the set of epoch 1. -/

namespace Crossing

/-- `L1` hears the first `k` blocks of the chain with these transitions. -/
def chain (first second : Bytes) (k : Nat) : List (Life → Event) :=
  (List.range k).map fun i s => Script.propose "L0"
    (Script.blockAt (fun h => if h = 1 then first else if h = 2 then second else [1])
      (fun h => if h < 4 then 0 else if h = 4 ∨ second = [1] then 1 else 2) ["L0", "L1", "L2"]
      (i + 1)) s.host

/-- `L1`, opened. -/
def boot : Life := opened (Script.boot Script.leaving (Script.setup "L1" 1))

/-- `L1` after `k` blocks with both transitions. -/
def after (k : Nat) : Life :=
  (machine Script.leaving (Script.setup "L1" 1)).play boot (chain [9] [8] k)

/-- A certificate that `L2` alone signed: enough in the set of the first transition. -/
def qc : QC := Script.certify 1
  (Script.idAt (fun h => if h = 1 then [9] else if h = 2 then [8] else [1]) 4) ["L2"]

end Crossing

/-- `L1` after `k` blocks with the first transition only, each step checked. -/
def Crossing.spaced (k : Nat) : Life :=
  ((machine Script.leaving (Script.setup "L1" 1)).restrict (Spaced Script.leaving)).play boot
    (chain [9] [1] k)

theorem sets_write_once_leaving :
    let s' := ((machine Script.leaving (Script.setup "L1" 1)).restrict (Spaced Script.leaving)).play
      (Crossing.spaced 4) ((Crossing.chain [9] [1] 8).drop 4 ++ [fun _ => .gc])
    s'.host.node.gcBase.height = 4 ∧
      s'.host.node.sets.lookup 1 = (Crossing.spaced 4).host.node.sets.lookup 1 := by
  refine ⟨by decide +kernel, ?_⟩
  have h := (sets_write_once (E := Script.leaving) (K := Script.setup "L1" 1)
    (show _ = Except.ok (Script.opened Script.leaving (Script.setup "L1" 1)) from rfl)
    (Machine.Steps.refl _)
    (Machine.steps_of_plays (Crossing.chain [9] [1] 4) _ (by decide +kernel))
    (Machine.steps_of_plays ((Crossing.chain [9] [1] 8).drop 4 ++ [fun _ => .gc]) _
      (by decide +kernel))).1 1
  cases hS : (Crossing.spaced 4).host.node.sets.lookup 1 with
  | none => exact absurd hS (by decide +kernel)
  | some S => exact h S hS

/-- **The set of epoch 1 is replaced**, and a certificate that was valid is not any more. -/
theorem sets_write_once_fails :
    (machine Script.leaving (Script.setup "L1" 1)).Steps Crossing.boot (Crossing.after 4) ∧
      (machine Script.leaving (Script.setup "L1" 1)).Steps (Crossing.after 4) (Crossing.after 5) ∧
      ((Crossing.after 4).host.node.sets.lookup 1).map (·.validators) = some ["L0", "L1", "L2"] ∧
      ((Crossing.after 5).host.node.sets.lookup 1).map (·.validators) = some ["L0", "L1", "L3"] ∧
      Crossing.qc.nodeID ∈ (Crossing.after 4).host.node.blocks ∧
      (Crossing.after 4).host.node.qcValid Script.leaving Crossing.qc = true ∧
      (Crossing.after 5).host.node.qcValid Script.leaving Crossing.qc = false :=
  ⟨Machine.steps_of_plays _ _ (by decide +kernel),
    Machine.steps_of_plays ((Crossing.chain [9] [8] 5).drop 4) _ (by decide +kernel),
    by decide +kernel, by decide +kernel, by decide +kernel, by decide +kernel, by decide +kernel⟩

end Life

end Cachey.HotStuff
