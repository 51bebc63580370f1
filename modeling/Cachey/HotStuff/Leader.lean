/-
# The cached leader

A replica keeps the leader of its view in `leader`.  It is computed when a view is entered, from
the set of the epoch the entry is made with, and kept until the next entry; the SCHEDULE,
`leaderOfEpoch(epoch, view)`, is read off the configuration of the moment.  The two differ in two
ways:

* a committed membership transition installs another set under an unchanged view, and with it
  another position of the view's leader (the first one already, when it removes the leader);
* a proposal takes the replica into its view with the set of the BLOCK's epoch, which need not be
  the epoch the replica is left in -- the set may not even be installed yet.

`Replica.KeepsSeat` rules out both in terms of the state before a call: a transition that is due
yields a set with the same leader of the view, and a proposal that takes the replica into a later
view is of an epoch whose set has the same leader of it as the current one.  A restart seats the
replica in view 0 under the configured leader, which `Setup.KeepsLeader` keeps a member of every
set that can be restored.

* §1  One call.
* §2  The schedule at view 0.
* §3  Restarts: what the checkpoint and the log restore.
* §4  Runs.
* §5  A transition under an unchanged view.
-/
import Cachey.HotStuff.Rebuild
import Cachey.HotStuff.Tenure
import Cachey.HotStuff.Views

namespace Cachey.HotStuff

namespace Replica

/-- The cached leader is the scheduled one.  `Propose` and `HandleVote` go by the former,
`HandleProposal` of the other replicas by the latter. -/
def Scheduled (n : Replica) : Prop := n.leaderOfEpoch n.epoch n.view = some n.leader

/-- The view a call leaves the replica in and the set its leader was computed from, as far as that
is not the current one: a proposal of a later view brings its own epoch. -/
def seating (E : Env) (inp : Input) (n : Replica) : ℕ × Option ValidatorSet :=
  match inp with
  | .deliver (.proposal p) =>
    if n.considers E p ∧ n.view < p.block.view then (p.block.view, n.sets.lookup p.block.epoch)
    else (n.view, n.sets.lookup n.epoch)
  | _ => (n.view, n.sets.lookup n.epoch)

/-- **A call keeps the leader of the view in office.**  The set the replica is seated by and the
current one have the same leader of the view; and so has the set that a transition which is due
makes of the one stored for its epoch.  No due transition starts from a set that another one opens:
each is judged by the sets before the call. -/
def KeepsSeat (E : Env) (C : Ctx) (inp : Input) (n : Replica) : Prop :=
  let view := (n.seating E inp).1
  let seated := leaderOfSet n.leader0 (n.seating E inp).2 view
  leaderOfSet n.leader0 (n.sets.lookup n.epoch) view = seated ∧
    ∀ x ∈ n.due E C inp, (∀ y ∈ n.due E C inp, x.opens ≠ y.epoch) ∧
      ∀ mc ∈ membershipOf E x, ∀ old ∈ n.sets.lookup x.epoch, ∀ ns ∈ old.apply mc,
        leaderOfSet n.leader0 (some ns) view = seated

instance (E : Env) (C : Ctx) (inp : Input) (n : Replica) : Decidable (n.KeepsSeat E C inp) := by
  unfold KeepsSeat
  infer_instance

end Replica

section Calls

variable {E : Env} {C : Ctx} {n : Replica} {inp : Input}

/-! ## 1. One call

The seat is taken at one moment of a call, and transitions may be committed before and after it.
Each of these is compared with the same thing, the leader that the view has in the sets BEFORE the
call. -/

theorem seating_of_not_entered
    (h : ∀ p, inp = .deliver (.proposal p) → ¬ (n.considers E p = true ∧ n.view < p.block.view)) :
    n.seating E inp = (n.view, n.sets.lookup n.epoch) := by
  unfold Replica.seating
  split
  next p => rw [if_neg (h p rfl)]
  next => rfl

/-- **The configuration a call ends in has the leader it seated the replica by.** -/
theorem leader_of_keepsSeat (hp : Planted n) (hout : n.out = []) (hidx : Indexed n.sets)
    (h : n.KeepsSeat E C inp) :
    leaderOfSet n.leader0 ((n.handle E C inp).sets.lookup (n.handle E C inp).epoch)
        (n.seating E inp).1 =
      leaderOfSet n.leader0 (n.seating E inp).2 (n.seating E inp).1 := by
  obtain ⟨hcurrent, hdue⟩ := h
  -- the sets that due transitions start from stay as they are
  refine (hp.transitions (Q := fun c =>
    (∀ y ∈ n.due E C inp, c.1.lookup y.epoch = n.sets.lookup y.epoch) ∧
      leaderOfSet n.leader0 (c.1.lookup c.2) (n.seating E inp).1 =
        leaderOfSet n.leader0 (n.seating E inp).2 (n.seating E inp).1) hout hidx
    (fun c x hx mc old ns hmc hold hns hc => ⟨fun y hy => ?_, ?_⟩) ⟨fun _ _ => rfl, hcurrent⟩).2
  · rw [GoMap.lookup_insert_of, if_neg (Ne.symm ((hdue x hx).1 y hy))]
    exact hc.1 y hy
  · rw [AList.lookup_insert]
    rw [hc.1 x hx] at hold
    exact (hdue x hx).2 mc hmc old hold ns hns

/-- **A call that keeps the seat keeps the schedule.** -/
theorem scheduled_handle (hp : Planted n) (hout : n.out = []) (hidx : Indexed n.sets)
    (h : n.Scheduled) (hkeep : n.KeepsSeat E C inp)
    (hrun : (n.handle E C inp).panicked = false) : (n.handle E C inp).Scheduled := by
  have hleader := leader_of_keepsSeat hp hout hidx hkeep
  have hsched : ∀ {v : ℕ} {l : String}, (n.handle E C inp).seat = (v, l, n.leader0) →
      leaderOfSet n.leader0 ((n.handle E C inp).sets.lookup (n.handle E C inp).epoch) v = some l →
      (n.handle E C inp).Scheduled := by
    intro v l hs hl
    unfold Replica.Scheduled Replica.leaderOfEpoch
    rw [show (n.handle E C inp).view = v from congrArg (·.1) hs,
      show (n.handle E C inp).leader = l from congrArg (·.2.1) hs,
      show (n.handle E C inp).leader0 = n.leader0 from congrArg (·.2.2) hs]
    exact hl
  by_cases hent : ∃ p, inp = .deliver (.proposal p) ∧ n.considers E p = true ∧ n.view < p.block.view
  · -- the proposal's view is entered with the set of its epoch
    obtain ⟨p, rfl, hc, hlt⟩ := hent
    have hseat := handleProposal_seat (C := C) hc hlt
    have hseating : n.seating E (.deliver (.proposal p)) =
        (p.block.view, n.sets.lookup p.block.epoch) := if_pos ⟨hc, hlt⟩
    rw [hseating] at hleader
    cases hl : n.leaderOfEpoch p.block.epoch p.block.view with
    | none => exact absurd ((handle_panicked (.proposed p hc) hlt hl).symm.trans hrun) (by simp)
    | some l =>
      rw [hl] at hseat
      exact hsched hseat (hleader.trans hl)
  · have hseating : n.seating E inp = (n.view, n.sets.lookup n.epoch) :=
      seating_of_not_entered fun p hinp hc => hent ⟨p, hinp, hc⟩
    rw [hseating] at hleader
    rcases handle_seat (E := E) (C := C) inp n with hseat | ⟨v, e, hentry, hlt, hseat⟩
    · exact hsched hseat (hleader.trans h)
    · -- a view change commits nothing and enters the view with the current set
      have hnone := fun hl => handle_panicked (C := C) hentry hlt hl
      have hkept : e = n.epoch ∧ (n.scope E C inp).folds = [] := by
        cases hentry with
        | suspected _ => exact ⟨rfl, rfl⟩
        | counted vc set _ _ _ => exact ⟨rfl, rfl⟩
        | proposed p hc => exact absurd ⟨p, rfl, hc, hlt⟩ hent
      obtain ⟨rfl, hfolds⟩ := hkept
      obtain ⟨hsets, hepoch⟩ := Prod.mk.inj
        (show (n.handle E C inp).config = n.config from
          (handle_moves hp.parked inp).1.config_eq hfolds)
      obtain ⟨l, hl⟩ := Option.ne_none_iff_exists'.mp
        (fun hl => absurd ((hnone hl).symm.trans hrun) (by simp) :
          n.leaderOfEpoch n.epoch v ≠ none)
      rw [hl] at hseat
      exact hsched hseat (by rw [hsets, hepoch]; exact hl)

end Calls

/-! ## 2. The schedule at view 0 -/

/-- The configured leader leads view 0 of every set it belongs to. -/
theorem leaderOfSet_zero {set : ValidatorSet} {leader0 : String}
    (hsorted : set.validators.Pairwise (· ≤ ·)) (hmem : leader0 ∈ set.validators)
    (hlen : set.validators.length < 2 ^ 63) : leaderOfSet leader0 (some set) 0 = some leader0 := by
  have hfound := (searchSorted_iff hsorted leader0).mpr hmem
  have hlt := (List.getElem?_eq_some_iff.mp hfound).1
  unfold leaderOfSet
  dsimp only
  generalize searchSorted set.validators leader0 = i at hfound hlt
  have hi : int64 (i + 0) = i := by
    unfold int64
    rw [Nat.add_zero, Nat.mod_eq_of_lt (by omega), if_pos (by omega)]
  have hk : (i : Int).tmod set.validators.length = i := by
    rw [← Int.ofNat_tmod, Nat.mod_eq_of_lt hlt]
  rw [if_neg (List.ne_nil_of_mem hmem), if_pos hfound, hi, hk, if_neg (by omega)]
  exact hfound

/-- What a replica that is just opened has for its first view. -/
structure Inaugural (ids : List String) (n : Replica) : Prop where
  view : n.view = 0
  epoch : n.epoch = 0
  leader : n.leader = n.leader0
  member : n.leader0 ∈ ids
  set0 : ∃ set, n.sets.lookup 0 = some set
  sets : ∀ e set, n.sets.lookup e = some set → set.validators = sortStrings ids

variable {E : Env} {n : Replica} {ids : List String} {K : Setup}

theorem Inaugural.newReplica {cfg : Config} (hn : Cachey.HotStuff.newReplica E cfg = .ok n) :
    Inaugural (cfg.id :: cfg.peers) n := by
  unfold Cachey.HotStuff.newReplica at hn
  split at hn
  · cases hn
  dsimp only at hn
  split at hn
  · cases hn
  generalize (if cfg.leader = "" then cfg.id else cfg.leader) = leader at hn
  split at hn
  · cases hn
  next hmem =>
    obtain rfl := Except.ok.inj hn
    refine ⟨rfl, rfl, rfl, not_not.mp hmem, ⟨_, AList.lookup_insert _⟩, fun e set hset => ?_⟩
    rw [GoMap.lookup_insert_of] at hset
    split at hset
    · exact Option.some.inj hset ▸ rfl
    · exact absurd hset (by simp [AList.lookup_empty])

theorem Inaugural.setPeerKey (h : Inaugural ids n) (peer : String) (pub : Bytes) :
    Inaugural ids (n.setPeerKey peer pub).1 := by
  unfold Replica.setPeerKey
  split
  · exact h
  dsimp only
  split
  · exact h
  split
  · exact { h with }
  next set hset =>
    split
    · refine { h with set0 := ⟨_, AList.lookup_insert _⟩, sets := fun e S hS => ?_ }
      rw [GoMap.lookup_insert_of] at hS
      split at hS
      · exact Option.some.inj hS ▸ h.sets 0 set hset
      · exact h.sets e S hS
    · exact { h with }

theorem Inaugural.foldl_setPeerKey : ∀ (keys : List (String × Bytes))
    (n : Replica), Inaugural ids n →
    Inaugural ids (keys.foldl (fun n k => (n.setPeerKey k.1 k.2).1) n)
  | [], _, h => h
  | k :: keys, _, h => Inaugural.foldl_setPeerKey keys _ (h.setPeerKey k.1 k.2)

theorem Inaugural.fresh (hn : K.fresh E = .ok n) : Inaugural (K.config.id :: K.config.peers) n := by
  unfold Setup.fresh at hn
  split at hn
  · cases hn
  next n₀ hn₀ =>
    obtain rfl := Except.ok.inj hn
    exact Inaugural.foldl_setPeerKey K.keys n₀ (Inaugural.newReplica hn₀)

theorem Inaugural.boot {K : Cluster} {r : String} (hn : K.boot E r = some n) :
    Inaugural (r :: K.members.erase r) n := by
  unfold Cluster.boot at hn
  split at hn
  · cases hn
  next n₀ hn₀ =>
    obtain rfl := Option.some.inj hn
    have h := Inaugural.foldl_setPeerKey (K.members.map fun m => (m, K.key E m)) n₀
      (Inaugural.newReplica hn₀)
    rw [List.foldl_map] at h
    exact { h with }

theorem Inaugural.scheduled (h : Inaugural ids n) (hlen : ids.length < 2 ^ 63) : n.Scheduled := by
  obtain ⟨set, hset⟩ := h.set0
  have hval := h.sets 0 set hset
  unfold Replica.Scheduled Replica.leaderOfEpoch
  rw [h.epoch, h.view, h.leader, hset]
  refine leaderOfSet_zero ?_ ?_ ?_
  · rw [hval]
    exact List.pairwise_insertionSort _ _
  · rw [hval]
    exact (List.mem_insertionSort _).mpr h.member
  · rw [hval, sortStrings, List.length_insertionSort]
    exact hlen

/-! ## 3. Restarts

A replica that is opened again is in view 0 and looks its leader up in the configuration it
restores: that of the checkpoint, carried through the transitions recovery activates.  The
configured leader leads view 0 of every set it belongs to, wherever its place in the set is. -/

/-- The leader a configuration names: the replica itself if it names none. -/
def Setup.leader (K : Setup) : String :=
  if K.config.leader = "" then K.config.id else K.config.leader

theorem Setup.fresh_leader0 (hn : K.fresh E = .ok n) : n.leader0 = K.leader := by
  obtain ⟨m, pk, s, hm, rfl⟩ := Setup.fresh_frame hn
  unfold newReplica at hm
  split at hm
  · cases hm
  dsimp only at hm
  split at hm
  · cases hm
  generalize hl : (if K.config.leader = "" then K.config.id else K.config.leader) = leader at hm
  split at hm
  · cases hm
  · obtain rfl := Except.ok.inj hm
    exact hl.symm

theorem Setup.reopen_seat {cp : Option Replica.Checkpoint} {log : List PersistEntry}
    (hn : K.reopen E cp log = .ok n) : n.seat = (0, K.leader, K.leader) := by
  obtain ⟨n₀, hn₀, h⟩ := K.reopen_restoring hn
  have h₀ := Inaugural.fresh hn₀
  have hl := Setup.fresh_leader0 hn₀
  rw [h, ← hl]
  exact Prod.ext h₀.view (Prod.ext h₀.leader rfl)

def PersistEntry.stored : PersistEntry → Option Block
  | .block b => some b
  | _ => none

def restored (cp : Option Replica.Checkpoint) (log : List PersistEntry) : List Block :=
  cp.toList.flatMap (·.blocks) ++ log.filterMap PersistEntry.stored

/-- Whoever is named on disk as a member. -/
def Setup.roster (E : Env) (K : Setup) (cp : Option Replica.Checkpoint)
    (log : List PersistEntry) : List String :=
  (K.config.id :: K.config.peers) ++
    (cp.toList.flatMap fun c => c.sets.values.flatMap (·.validators)) ++
    (restored cp log).flatMap fun b =>
      (membershipOf E b).toList.flatMap fun mc => mc.add.map (·.id)

/-- **The configured leader stays a member** whatever a restart restores: it is one in every set of
the checkpoint, and no membership block on disk removes it.  The bound is the range of Go's `int`
for the length of a slice. -/
def Setup.KeepsLeader (E : Env) (K : Setup) (cp : Option Replica.Checkpoint)
    (log : List PersistEntry) : Prop :=
  (∀ c ∈ cp, ∀ S ∈ c.sets.values, K.leader ∈ S.validators) ∧
    (∀ b ∈ restored cp log, ∀ mc ∈ membershipOf E b, K.leader ∉ mc.remove) ∧
    (K.roster E cp log).length < 2 ^ 63

instance (E : Env) (K : Setup) (cp : Option Replica.Checkpoint) (log : List PersistEntry) :
    Decidable (K.KeepsLeader E cp log) :=
  inferInstanceAs (Decidable (_ ∧ _ ∧ _))

/-- A set that can be restored: sorted, with the leader in it, and of named members. -/
structure ValidatorSet.Retains (ids : List String) (leader : String) (S : ValidatorSet) : Prop where
  sorted : S.validators.Pairwise (· ≤ ·)
  member : leader ∈ S.validators
  named : S.validators ⊆ ids
  length : S.validators.length ≤ ids.length

theorem ValidatorSet.Retains.apply {leader : String} {S ns : ValidatorSet} {mc : MembershipChange}
    (h : S.Retains ids leader) (hns : S.apply mc = some ns) (hkeep : leader ∉ mc.remove)
    (hadd : mc.add.map (·.id) ⊆ ids) : ns.Retains ids leader := by
  have hnodup := (ValidatorSet.wellFormed_of_apply hns).nodup
  obtain ⟨-, rfl⟩ := ValidatorSet.apply_eq_some_iff.mp hns
  have hnamed : (S.next mc).validators ⊆ ids := by
    intro id hid
    rcases ValidatorSet.mem_validators_next.mp hid with ⟨hold, -⟩ | hnew
    · exact h.named hold
    · exact hadd hnew
  exact ⟨ValidatorSet.sortStrings_sorted _,
    ValidatorSet.mem_validators_next.mpr (Or.inl ⟨h.member, hkeep⟩), hnamed,
    (List.subperm_of_subset hnodup hnamed).length_le⟩

/-- What holds of the tree of a replica that is reopened: a block of it is on disk, or empty. -/
def OnDisk (disk : List Block) (n : Replica) : Prop := Standing (fun b => b.cmd = [] ∨ b ∈ disk) n

theorem OnDisk.put {disk : List Block} {blocks : GoMap BlockID Block} {b : Block}
    (h : ∀ id x, blocks.lookup id = some x → x.cmd = [] ∨ x ∈ disk) (hb : b.cmd = [] ∨ b ∈ disk)
    (key : BlockID) : ∀ id x, (blocks.insert key b).lookup id = some x → x.cmd = [] ∨ x ∈ disk := by
  intro id x hx
  rw [GoMap.lookup_insert_of] at hx
  split at hx
  · exact Option.some.inj hx ▸ hb
  · exact h id x hx

theorem OnDisk.loadCheckpoint {disk : List Block} {cp : Replica.Checkpoint}
    (hcp : ∀ b ∈ cp.blocks, b ∈ disk) (n : Replica) : OnDisk disk (n.loadCheckpoint cp) := by
  have hput : ∀ (l : List Block) (m : GoMap BlockID Block), (∀ b ∈ l, b ∈ disk) →
      (∀ id x, m.lookup id = some x → x.cmd = [] ∨ x ∈ disk) →
      ∀ id x, (l.foldl (fun m b => m.insert b.id b) m).lookup id = some x →
        x.cmd = [] ∨ x ∈ disk := by
    intro l
    induction l with
    | nil => exact fun _ _ h => h
    | cons b l ih =>
      exact fun m hl h => ih _ (fun x hx => hl x (List.mem_cons_of_mem _ hx))
        (OnDisk.put h (Or.inr (hl b List.mem_cons_self)) b.id)
  have hloaded := hput cp.blocks ∅ hcp fun id x hx => absurd hx (by simp [AList.lookup_empty])
  unfold OnDisk Standing Replica.loadCheckpoint
  dsimp only
  generalize (cp.blocks.foldl (fun m b => m.insert b.id b) ∅ : GoMap BlockID Block) = m at hloaded ⊢
  have hroot : ∀ id x, (if genesisID ∈ m then m
      else m.insert genesisID (genesisBlock n.all).1).lookup id = some x →
        x.cmd = [] ∨ x ∈ disk := by
    split
    · exact hloaded
    · exact OnDisk.put hloaded (Or.inl rfl) genesisID
  generalize (if genesisID ∈ m then m else m.insert genesisID (genesisBlock n.all).1) = blocks
    at hroot ⊢
  split
  · exact hroot
  · generalize Replica.path _ _ = l
    obtain ⟨a, w, o, heq⟩ := foldl_markApplied_eq l _
    rw [heq]
    exact hroot

theorem OnDisk.replay {disk : List Block} : ∀ (log : List PersistEntry) (n : Replica),
    (∀ b, .block b ∈ log → b ∈ disk) → OnDisk disk n → OnDisk disk (n.replay log)
  | [], _, _, h => h
  | pe :: log, n, hlog, h => by
    refine OnDisk.replay log (n.applyRecoveredEntry pe)
      (fun b hb => hlog b (List.mem_cons_of_mem _ hb)) ?_
    unfold Replica.applyRecoveredEntry
    cases pe with
    | block b =>
      dsimp only
      split_ifs
      · exact h
      · exact h
      · exact h
      · exact OnDisk.put h (Or.inr (hlog b List.mem_cons_self)) b.id
    | qc qc => exact h
    | applied id => dsimp only; split_ifs <;> exact h
    | voted v => dsimp only; split_ifs <;> exact h

theorem loadCheckpoint_config (cp : Replica.Checkpoint) (n : Replica) :
    (n.loadCheckpoint cp).config = (cp.sets, cp.epoch) := by
  unfold Replica.loadCheckpoint
  dsimp only
  split
  · rfl
  · generalize Replica.path _ _ = l
    obtain ⟨a, w, o, heq⟩ := foldl_markApplied_eq l _
    rw [heq]
    rfl

theorem finishRecovery_config {Q : GoMap Nat ValidatorSet × Nat → Prop} {disk : List Block}
    (htree : OnDisk disk n) (hstep : ∀ c, ∀ b ∈ disk, Q c → Q (activation E c b))
    (h : Q n.config) : Q (n.finishRecovery E).config := by
  have hempty : ∀ (c : GoMap Nat ValidatorSet × Nat) (b : Block), b.cmd = [] →
      activation E c b = c := by
    intro c b hb
    rw [activation, if_pos]
    simp [isMembershipBlock, isMembershipCmd, hb]
  have hfold := Replica.foldl_recoverQC_keeps (E := E)
    (P := fun r => r.replica.blocks = n.blocks ∧ Q r.replica.config) (fun _ _ _ h => h)
    (fun r id gp hr hgp => by
      rw [activateTransitionLocked_eq]
      refine ⟨hr.1, ?_⟩
      rcases htree id gp (hr.1 ▸ hgp) with hcmd | hdisk
      · rw [hempty _ gp hcmd]
        exact hr.2
      · exact hstep _ gp hdisk hr.2) n.recoverQCs
    { replica := n, qcHigh := n.qcHigh, lock := n.blockAt n.bLock, exec := n.blockAt n.bExec }
    ⟨rfl, h⟩
  unfold Replica.finishRecovery Replica.markPathApplied
  dsimp only
  generalize List.foldl (Replica.recoverQC E) _ _ = r at hfold ⊢
  generalize List.takeWhile _ _ = path
  obtain ⟨a, w, o, heq⟩ := foldl_markApplied_eq path
    { r.replica with
      qcHigh := if r.qcHigh.nodeID ∈ r.replica.blocks then r.qcHigh else r.replica.qcHigh
      head := (if r.qcHigh.nodeID ∈ r.replica.blocks then r.qcHigh else r.replica.qcHigh).nodeID
      bLock := r.lock.id
      bExec := _ }
  rw [heq]
  exact hfold.2

/-- **What is on disk decides about the configuration of a replica that is reopened**: it is the
configured one, or the checkpoint's, carried through transitions on disk. -/
theorem Setup.reopen_config {Q : GoMap Nat ValidatorSet × Nat → Prop}
    {cp : Option Replica.Checkpoint} {log : List PersistEntry} (hn : K.reopen E cp log = .ok n)
    (hfresh : cp = none → ∀ n₀, K.fresh E = .ok n₀ → Q n₀.config)
    (hcp : ∀ c, cp = some c → Q (c.sets, c.epoch))
    (hstep : ∀ c, ∀ b ∈ restored cp log, Q c → Q (activation E c b)) : Q n.config := by
  unfold Setup.reopen at hn
  split at hn
  · cases hn
  next n₀ hn₀ =>
    obtain rfl := Except.ok.inj hn
    have hrest : ∀ n₁ : Replica, OnDisk (restored cp log) n₁ → Q n₁.config →
        Q ({ n₁.replay log with logStore := K.durable }.finishRecovery E).config := by
      intro n₁ hdisk hQ
      have hreplayed : OnDisk (restored cp log) (n₁.replay log) :=
        OnDisk.replay log n₁ (fun b hb => List.mem_append_right _
          (List.mem_filterMap.mpr ⟨_, hb, rfl⟩)) hdisk
      have hconf : (n₁.replay log).config = n₁.config := by
        rw [replay_eq]
        rfl
      exact finishRecovery_config (n := { n₁.replay log with logStore := K.durable }) hreplayed
        hstep (hconf ▸ hQ : Q (n₁.replay log).config)
    cases cp with
    | none =>
      refine hrest n₀ (fun id b hb => Or.inl ?_) (hfresh rfl n₀ hn₀)
      obtain ⟨g, hg, hblocks⟩ := (Newborn.fresh hn₀).tree
      rw [hblocks, GoMap.lookup_insert_of] at hb
      split at hb
      · exact Option.some.inj hb ▸ hg.cmd_eq
      · exact absurd hb (by simp [AList.lookup_empty])
    | some c =>
      refine hrest (n₀.loadCheckpoint c) (OnDisk.loadCheckpoint (fun b hb => ?_) n₀) ?_
      · exact List.mem_append_left _ (List.mem_flatMap.mpr ⟨c, by simp, hb⟩)
      · rw [loadCheckpoint_config]
        exact hcp c rfl

/-- The current epoch has a set. -/
def Housed (c : GoMap Nat ValidatorSet × Nat) : Prop := ∃ S, c.1.lookup c.2 = some S

theorem Housed.activation {c : GoMap Nat ValidatorSet × Nat} (h : Housed c) (b : Block) :
    Housed (HotStuff.activation E c b) := by
  unfold HotStuff.activation
  split
  · exact h
  split
  · split
    · exact h
    next ns _ => exact ⟨ns, AList.lookup_insert _⟩
  · exact h

theorem Inaugural.housed (h : Inaugural ids n) : Housed n.config := by
  obtain ⟨S, hS⟩ := h.set0
  refine ⟨S, ?_⟩
  change n.sets.lookup n.epoch = some S
  rw [h.epoch]
  exact hS

/-- **A restart that keeps the configured leader a member restores the schedule.** -/
theorem Setup.scheduled_reopen {cp : Option Replica.Checkpoint} {log : List PersistEntry}
    (hn : K.reopen E cp log = .ok n) (hkeep : K.KeepsLeader E cp log)
    (hcp : ∀ c, cp = some c → Housed (c.sets, c.epoch) ∧
      ∀ e S, c.sets.lookup e = some S → S.validators.Pairwise (· ≤ ·)) :
    n.Scheduled ∧ Housed n.config := by
  obtain ⟨hmember, hremove, hlen⟩ := hkeep
  have hseat := K.reopen_seat hn
  have hconf : Housed n.config ∧
      ∀ e S, n.config.1.lookup e = some S → S.Retains (K.roster E cp log) K.leader := by
    refine Setup.reopen_config (Q := fun c => Housed c ∧
      ∀ e S, c.1.lookup e = some S → S.Retains (K.roster E cp log) K.leader) hn
      (fun _ n₀ hn₀ => ?_) (fun c hc => ?_) fun c b hb h => ⟨h.1.activation b, ?_⟩
    · have h₀ := Inaugural.fresh hn₀
      refine ⟨h₀.housed, fun e S hS => ?_⟩
      have hval := h₀.sets e S hS
      refine ⟨?_, ?_, fun id hid => ?_, ?_⟩
      · rw [hval]
        exact ValidatorSet.sortStrings_sorted _
      · rw [hval, ← Setup.fresh_leader0 hn₀]
        exact (List.mem_insertionSort _).mpr h₀.member
      · rw [hval] at hid
        exact List.mem_append_left _ (List.mem_append_left _ ((List.mem_insertionSort _).mp hid))
      · rw [hval, sortStrings, List.length_insertionSort, Setup.roster, List.length_append,
          List.length_append]
        omega
    · obtain rfl := hc
      refine ⟨(hcp c rfl).1, fun e S hS => ?_⟩
      have hin : S ∈ c.sets.values := GoMap.mem_values_of_lookup hS
      have hsub : S.validators.Sublist (K.roster E (some c) log) := by
        refine List.Sublist.trans ?_ (List.sublist_append_left _ _)
        refine List.Sublist.trans ?_ (List.sublist_append_right _ _)
        simp only [Option.toList_some, List.flatMap_cons, List.flatMap_nil, List.append_nil]
        rw [List.flatMap_def]
        exact List.sublist_flatten_of_mem (List.mem_map_of_mem hin)
      exact ⟨(hcp c rfl).2 e S hS, hmember c rfl S hin, hsub.subset, hsub.length_le⟩
    · -- a transition on disk does not remove the leader, and adds named members
      intro e S hS
      unfold activation at hS
      split at hS
      · exact h.2 e S hS
      split at hS
      next mc old hmc hold =>
        split at hS
        · exact h.2 e S hS
        next ns hns =>
          rw [GoMap.lookup_insert_of] at hS
          split at hS
          · obtain rfl := Option.some.inj hS
            refine (h.2 _ old hold).apply hns (hremove b hb mc hmc) fun id hid => ?_
            exact List.mem_append_right _ (List.mem_flatMap.mpr ⟨b, hb,
              List.mem_flatMap.mpr ⟨mc, Option.mem_toList.mpr hmc, hid⟩⟩)
          · exact h.2 e S hS
      · exact h.2 e S hS
  obtain ⟨⟨S, hS⟩, hall⟩ := hconf
  have hseats := hall _ S hS
  refine ⟨?_, S, hS⟩
  unfold Replica.Scheduled Replica.leaderOfEpoch
  rw [show n.view = 0 from congrArg (·.1) hseat,
    show n.leader = K.leader from congrArg (·.2.1) hseat,
    show n.leader0 = K.leader from congrArg (·.2.2) hseat,
    show n.sets.lookup n.epoch = some S from hS]
  exact leaderOfSet_zero hseats.sorted hseats.member (lt_of_le_of_lt hseats.length hlen)

theorem Replica.Scheduled.congr {n' : Replica} (h : n.Scheduled) (hseat : n'.seat = n.seat)
    (hconf : n'.config = n.config) : n'.Scheduled := by
  unfold Replica.Scheduled Replica.leaderOfEpoch at h ⊢
  rw [show n'.view = n.view from congrArg (·.1) hseat,
    show n'.leader = n.leader from congrArg (·.2.1) hseat,
    show n'.leader0 = n.leader0 from congrArg (·.2.2) hseat,
    show n'.sets = n.sets from congrArg Prod.fst hconf,
    show n'.epoch = n.epoch from congrArg Prod.snd hconf]
  exact h

/-! ## 4. Runs -/

/-- A set is filed under its own epoch, with its members sorted. -/
def Filed (e : ℕ) (S : ValidatorSet) : Prop := S.epoch = e ∧ S.validators.Pairwise (· ≤ ·)

theorem filed_law : SetLaw Filed where
  apply _ happly := by
    obtain ⟨-, rfl⟩ := ValidatorSet.apply_eq_some_iff.mp happly
    exact ⟨rfl, ValidatorSet.sortStrings_sorted _⟩
  pin h _ := h

theorem gcLocked_housed (h : Housed n.config) {cp : Replica.Checkpoint}
    (hcp : n.gcLocked.2 = some cp) : Housed (cp.sets, cp.epoch) := by
  unfold Replica.gcLocked at hcp
  split at hcp
  · cases hcp
  split at hcp
  · cases hcp
  split at hcp
  · cases hcp
  · obtain rfl := Option.some.inj hcp
    exact h

namespace Host

/-- **Every event leaves the leader of the view in office**: a call keeps the seat, and what a
restart restores keeps the configured leader a member. -/
def KeepsSeat (E : Env) (K : Setup) (s : Host) : Event → Prop
  | .call input ctx writes => (s.ready writes).KeepsSeat E ctx input
  | .restart => K.KeepsLeader E s.checkpoint s.log
  | _ => True

instance (E : Env) (K : Setup) (s : Host) (e : Event) : Decidable (s.KeepsSeat E K e) :=
  match e with
  | .call input ctx writes => inferInstanceAs (Decidable ((s.ready writes).KeepsSeat E ctx input))
  | .restart => inferInstanceAs (Decidable (K.KeepsLeader E s.checkpoint s.log))
  | .gc | .writeCheckpoint | .rotate => inferInstanceAs (Decidable True)

instance (E : Env) (K : Setup) (s : Host) (e : Event) :
    Decidable (((machine E K).restrict (KeepsSeat E K)).enabled s e) :=
  inferInstanceAs (Decidable (s.Enabled e ∧ s.KeepsSeat E K e))

variable {E : Env} {K : Setup} {s : Host}

/-- What a run that keeps the seat keeps. -/
structure Seated (s : Host) : Prop where
  stocked : s.Stocked
  lawful : s.Lawful Filed
  housed : Housed s.node.config
  files : ∀ cp, s.checkpoint = some cp ∨ s.taken = some cp → Housed (cp.sets, cp.epoch)
  /-- a process that panicked can only restart, and what it had cached is gone -/
  scheduled : s.node.panicked = false → s.node.Scheduled

theorem Seated.act {e : Event} (h : s.Seated) (hfound : K.Founds E Filed) (hen : s.Enabled e)
    (hkeep : s.KeepsSeat E K e) : (s.act E K e).Seated := by
  have hfiles : ∀ cp, (s.act E K e).checkpoint = some cp ∨ (s.act E K e).taken = some cp →
      Housed (cp.sets, cp.epoch) := fun cp hcp =>
    (Host.act_files hcp).elim (h.files cp) (gcLocked_housed h.housed)
  suffices hnode : Housed (s.act E K e).node.config ∧
      ((s.act E K e).node.panicked = false → (s.act E K e).node.Scheduled) from
    ⟨h.stocked.act e, h.lawful.act filed_law hfound h.stocked e, hnode.1, hfiles, hnode.2⟩
  cases e with
  | call input ctx writes =>
    have hp : Planted (s.ready writes) := h.stocked.node.congr ⟨rfl, rfl, rfl, rfl⟩
    refine ⟨hp.committing (Q := Housed) rfl (fun c x _ hc => hc.activation x) h.housed, fun hl => ?_⟩
    exact scheduled_handle hp rfl (indexed_iff.mpr fun e S hS => (h.lawful.node e S hS).1)
      ((h.scheduled hen).congr rfl rfl) hkeep hl
  | gc =>
    have hconf : s.node.gcLocked.1.config = s.node.config := by
      rcases gcLocked_cases s.node with heq | ⟨exec, base, cp, _, _, c⟩
      · exact congrArg (fun r => r.1.config) heq
      · exact Prod.ext c.sets c.epoch
    refine ⟨?_, fun _ => (h.scheduled hen).congr ((inert_seat (· = s.node.seat)).gcLocked rfl) hconf⟩
    change Housed s.node.gcLocked.1.config
    rw [hconf]
    exact h.housed
  | writeCheckpoint => exact ⟨h.housed, fun _ => h.scheduled hen⟩
  | rotate => exact ⟨h.housed, fun _ => h.scheduled hen.1⟩
  | restart =>
    unfold Host.act
    cases hr : K.reopen E s.checkpoint s.log with
    | error _ => exact ⟨h.housed, h.scheduled⟩
    | ok n =>
      obtain ⟨hsched, hhoused⟩ := Setup.scheduled_reopen hr hkeep fun c hc =>
        ⟨h.files c (Or.inl hc), fun e S hS => (h.lawful.files c (Or.inl hc) e S hS).2⟩
      exact ⟨hhoused, fun _ => hsched⟩

/-- **The cached leader follows the schedule** in every run whose events keep the seat.  Whoever
considers itself leader is then the one whose proposals the other replicas with the same view and
set accept.

The view is that of a process that runs: after a panic only a restart is left.  The bound is the
range of Go's `int` for the length of a slice. -/
theorem leader_follows {n₀ : Replica} (h₀ : K.fresh E = .ok n₀)
    (hlen : (K.config.id :: K.config.peers).length < 2 ^ 63)
    (hrun : ((machine E K).restrict (KeepsSeat E K)).Steps (start K n₀) s)
    (hlive : s.node.panicked = false) :
    s.node.leaderOfEpoch s.node.epoch s.node.view = some s.node.leader ∧
    ∀ (m : Replica) (p : Proposal), m.leader0 = s.node.leader0 → m.view = s.node.view →
      m.sets.lookup m.epoch = s.node.sets.lookup s.node.epoch →
      p.block.view = m.view → (m.epochAndSetOfLocked E p.block).2 = m.sets.lookup m.epoch →
      m.accepts E p = true → p.sender = s.node.leader := by
  have hfound : K.Founds E Filed := founds_of_genesis ⟨rfl, ValidatorSet.sortStrings_sorted _⟩
  have h₁ := Inaugural.fresh h₀
  have hinv : s.Seated := by
    refine hrun.invariant (P := Seated)
      (fun s e h (hen : s.Enabled e ∧ s.KeepsSeat E K e) => h.act hfound hen.1 hen.2) ?_
    exact ⟨Stocked.start h₀, Host.lawful filed_law hfound h₀ (Machine.Steps.refl _),
      h₁.housed, fun cp hcp => absurd hcp (by simp [Host.start]),
      fun _ => (h₁.scheduled hlen).congr rfl rfl⟩
  have h := hinv.scheduled hlive
  refine ⟨h, fun m p h0 hv hset hpv hder hacc => ?_⟩
  rw [Replica.accepts, Bool.and_eq_true] at hacc
  obtain ⟨_, _, _, _, ⟨set, hd, hl, _⟩, _⟩ := considers_iff.mp hacc.1
  rw [hd] at hder
  dsimp only at hder
  rw [h0, hpv, hv, hder, hset] at hl
  exact Option.some.inj (hl.symm.trans h)

end Host

/-! ## 5. A transition under an unchanged view

`L0` leads view 0, proposes three blocks, and hears two votes for each; the first block removes a
member, and the votes for the third one commit it.  Removing `L3` leaves `L0` in office, and when
it then suspects its view it has `L1` for the next one.  Removing `L0` ITSELF leaves it the leader
in its own eyes, though the schedule of the new epoch begins with `L1`. -/

namespace Retiring

/-- The command `[9]` removes `L3`, the command `[8]` removes `L0`. -/
def env : Env := Script.changing (Script.leaves "L3") (Script.leaves "L0")

/-- The commands of the three blocks. -/
def cmds (first : Bytes) (h : ℕ) : Bytes := if h = 1 then first else [1]

/-- `voter` votes for the block at height `h`. -/
def vote (first : Bytes) (h : ℕ) (voter : String) : Host → Event :=
  Script.hear (.vote { height := h, nodeID := Script.idAt (cmds first) h, voter := voter,
                       sig := (four false).priv voter })

def commit (first : Bytes) : List (Host → Event) :=
  [1, 2, 3].flatMap fun h => [fun _ => .call (.propose (cmds first h)) Move.still [],
    vote first h "L1", vote first h "L2"]

/-- `L0` suspects its view. -/
def suspicion : Host → Event := fun _ => .call .startViewChange Move.still []

def after (ms : List (Host → Event)) : Host :=
  (Host.machine env (Script.setup "L0" 1)).play (Script.boot env (Script.setup "L0" 1)) ms

end Retiring

namespace Host

/-- Where a script leads if each of its events keeps the seat. -/
def seatedBy (ms : List (Host → Event)) : Host :=
  ((machine Retiring.env (Script.setup "L0" 1)).restrict
    (KeepsSeat Retiring.env (Script.setup "L0" 1))).play
      (Script.boot Retiring.env (Script.setup "L0" 1)) ms

theorem leader_follows_removal :
    let s := seatedBy (Retiring.commit [9] ++ [Retiring.suspicion])
    let s' := seatedBy (Retiring.commit [9] ++ [Retiring.suspicion, fun _ => .restart])
    (s.node.epoch = 1 ∧ s.node.view = 1 ∧ s.node.leader = "L1" ∧
        s.node.leaderOfEpoch s.node.epoch s.node.view = some s.node.leader) ∧
      s'.node.epoch = 1 ∧ s'.node.view = 0 ∧
        s'.node.leaderOfEpoch s'.node.epoch s'.node.view = some s'.node.leader :=
  ⟨⟨by decide +kernel, by decide +kernel, by decide +kernel,
    (leader_follows (E := Retiring.env) (K := Script.setup "L0" 1)
      (show _ = Except.ok (Script.opened Retiring.env (Script.setup "L0" 1)) from rfl) (by decide)
      (Machine.steps_of_plays (Retiring.commit [9] ++ [Retiring.suspicion]) _ (by decide +kernel))
      (by decide +kernel)).1⟩,
    by decide +kernel, by decide +kernel,
    (leader_follows (E := Retiring.env) (K := Script.setup "L0" 1)
      (show _ = Except.ok (Script.opened Retiring.env (Script.setup "L0" 1)) from rfl) (by decide)
      (Machine.steps_of_plays (Retiring.commit [9] ++ [Retiring.suspicion, fun _ => .restart]) _
        (by decide +kernel)) (by decide +kernel)).1⟩

/-- **The leader is removed and stays the leader in its own eyes.** -/
theorem leader_follows_fails :
    (machine Retiring.env (Script.setup "L0" 1)).Steps
        (Script.boot Retiring.env (Script.setup "L0" 1)) (Retiring.after (Retiring.commit [8])) ∧
      (Retiring.after (Retiring.commit [8])).node.panicked = false ∧
      (Retiring.after (Retiring.commit [8])).node.id = "L0" ∧
      (Retiring.after (Retiring.commit [8])).node.leader = "L0" ∧
      (Retiring.after (Retiring.commit [8])).node.leaderOfEpoch
        (Retiring.after (Retiring.commit [8])).node.epoch
        (Retiring.after (Retiring.commit [8])).node.view = some "L1" :=
  ⟨Machine.steps_of_plays _ _ (by decide +kernel), by decide +kernel, by decide +kernel,
    by decide +kernel, by decide +kernel⟩

end Host

end Cachey.HotStuff
