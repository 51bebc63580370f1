/-
# The sets a replica knows

A replica keeps one validator set for each epoch it knows.  A set enters in three ways: as the
genesis set of the configuration, by `activateTransitionLocked`, and from a checkpoint file, which
holds what an earlier life of the host knew.  `SetPeerKey` pins a key in the genesis set.

* §1  A property of a set and the epoch it is stored under that `apply` and pinning keep (`SetLaw`)
      holds of every known set of every reachable host, if it holds of the genesis set
      (`Host.lawful`).
* §2  So every known set can decide a vote (`ValidatorSet.Usable`): its quorum is not empty, and no
      member of it has an empty key, for which `verifyInSet` refuses every signature.
* §3  And every known set is stored under its own epoch (`Host.ownEpoch`), whatever epochs the
      blocks claimed that were committed on the way.
-/
import Cachey.HotStuff.Executions
import Cachey.HotStuff.Validators

namespace Cachey.HotStuff

/-! ## 1. Laws of sets -/

/-- What a membership change and a pinned key keep: a changed set is stored under the epoch it
says, a set with another key where it was. -/
structure SetLaw (P : Nat → ValidatorSet → Prop) : Prop where
  apply : ∀ {e : Nat} {s s' : ValidatorSet} {mc : MembershipChange}, P e s →
    s.apply mc = some s' → P s'.epoch s'
  pin : ∀ {e : Nat} {s : ValidatorSet} {peer : String} {pub : Bytes}, P e s → pub ≠ [] →
    P e { s with publicKeys := s.publicKeys.insert peer pub }

/-- `P` holds of every known set and its epoch. -/
def AllSets (P : Nat → ValidatorSet → Prop) (sets : GoMap Nat ValidatorSet) : Prop :=
  ∀ e S, sets.lookup e = some S → P e S

namespace AllSets

variable {P : Nat → ValidatorSet → Prop} {E : Env} {n : Replica}

theorem insert {sets : GoMap Nat ValidatorSet} (h : AllSets P sets) {e : Nat} {S : ValidatorSet}
    (hS : P e S) : AllSets P (sets.insert e S) := by
  intro e' S' hS'
  rw [GoMap.lookup_insert_of] at hS'
  split at hS'
  next he => exact he ▸ Option.some.inj hS' ▸ hS
  next => exact h e' S' hS'

theorem activation (hP : SetLaw P) {c : GoMap Nat ValidatorSet × Nat} (h : AllSets P c.1)
    (b : Block) : AllSets P (HotStuff.activation E c b).1 := by
  unfold HotStuff.activation
  split
  · exact h
  split
  next mc old _ hold =>
    split
    · exact h
    next ns hns => exact h.insert (hP.apply (h _ _ hold) hns)
  · exact h

theorem activateTransitionLocked (hP : SetLaw P) (h : AllSets P n.sets) (b : Block) :
    AllSets P (n.activateTransitionLocked E b).sets := by
  rw [activateTransitionLocked_eq]
  exact activation hP (c := (n.sets, n.epoch)) h b

theorem handle (hP : SetLaw P) (hp : Planted n) (hout : n.out = []) (h : AllSets P n.sets)
    (C : Ctx) (inp : Input) : AllSets P (n.handle E C inp).sets := by
  refine hp.executing (P := fun n => AllSets P n.sets) (fun m m' hc hm => ?_)
    (fun m b _ hm => ?_) hout inp h
  · rw [hc.sets]
    exact hm
  · obtain ⟨a, w, o, heq, -⟩ := execBlock_eq (E := E) m b
    rw [heq]
    exact activation hP (c := (m.sets, m.epoch)) hm b

theorem setPeerKey (hP : SetLaw P) (h : AllSets P n.sets) (peer : String) (pub : Bytes) :
    AllSets P (n.setPeerKey peer pub).1.sets := by
  unfold Replica.setPeerKey
  split
  · exact h
  next hpub =>
    dsimp only
    split
    · exact h
    split
    · exact h
    next set hset =>
      split
      · exact h.insert (hP.pin (h 0 set hset) hpub)
      · exact h

theorem foldl_setPeerKey (hP : SetLaw P) : ∀ (keys : List (String × Bytes)) (n : Replica),
    AllSets P n.sets → AllSets P (keys.foldl (fun n k => (n.setPeerKey k.1 k.2).1) n).sets
  | [], _, h => h
  | k :: keys, _, h => foldl_setPeerKey hP keys _ (h.setPeerKey hP k.1 k.2)

theorem foldl_recoverQC (hP : SetLaw P) (qcs : List QC) (r : Replica.Recovered)
    (h : AllSets P r.replica.sets) : AllSets P (qcs.foldl (Replica.recoverQC E) r).replica.sets :=
  Replica.foldl_recoverQC_keeps (P := fun r => AllSets P r.replica.sets) (fun _ _ _ h => h)
    (fun _ _ gp h _ => h.activateTransitionLocked hP gp) qcs r h

theorem finishRecovery (hP : SetLaw P) (h : AllSets P n.sets) :
    AllSets P (n.finishRecovery E).sets := by
  have hr := foldl_recoverQC (E := E) hP n.recoverQCs
    { replica := n, qcHigh := n.qcHigh, lock := n.blockAt n.bLock, exec := n.blockAt n.bExec } h
  unfold Replica.finishRecovery Replica.markPathApplied
  dsimp only
  generalize List.foldl (Replica.recoverQC E) _ _ = r at hr ⊢
  -- marking the path touches neither the sets nor the tree
  generalize List.takeWhile _ _ = path
  obtain ⟨a, w, o, heq⟩ := foldl_markApplied_eq path
    { r.replica with
      qcHigh := if r.qcHigh.nodeID ∈ r.replica.blocks then r.qcHigh else r.replica.qcHigh
      head := (if r.qcHigh.nodeID ∈ r.replica.blocks then r.qcHigh else r.replica.qcHigh).nodeID
      bLock := r.lock.id
      bExec := _ }
  rw [heq]
  exact hr

theorem loadCheckpoint {cp : Replica.Checkpoint} (h : AllSets P cp.sets) (n : Replica) :
    AllSets P (n.loadCheckpoint cp).sets := by
  unfold Replica.loadCheckpoint
  dsimp only
  split
  · exact h
  · generalize Replica.path _ _ = l
    obtain ⟨a, w, o, heq⟩ := foldl_markApplied_eq l _
    rw [heq]
    exact h

theorem replay : ∀ (log : List PersistEntry) (n : Replica), AllSets P n.sets →
    AllSets P (log.foldl (fun n pe => n.applyRecoveredEntry pe) n).sets
  | [], _, h => h
  | pe :: log, n, h => by
    refine replay log (n.applyRecoveredEntry pe) ?_
    unfold Replica.applyRecoveredEntry
    cases pe with
    | block b => dsimp only; split_ifs <;> exact h
    | qc qc => exact h
    | applied id => dsimp only; split_ifs <;> exact h
    | voted v => dsimp only; split_ifs <;> exact h

end AllSets

/-- `P` holds of the genesis set of a configuration, before any key is pinned. -/
def Setup.Founds (E : Env) (K : Setup) (P : Nat → ValidatorSet → Prop) : Prop :=
  ∀ n, newReplica E K.config = .ok n → AllSets P n.sets

section Laws

variable {P : Nat → ValidatorSet → Prop} {E : Env} {K : Setup} {n : Replica}

theorem AllSets.fresh (hP : SetLaw P) (hK : K.Founds E P) (hn : K.fresh E = .ok n) :
    AllSets P n.sets := by
  unfold Setup.fresh at hn
  split at hn
  · cases hn
  next n₀ hn₀ =>
    obtain rfl := Except.ok.inj hn
    exact AllSets.foldl_setPeerKey hP K.keys n₀ (hK n₀ hn₀)

theorem AllSets.reopen (hP : SetLaw P) (hK : K.Founds E P) {cp : Option Replica.Checkpoint}
    {log : List PersistEntry} (hn : K.reopen E cp log = .ok n)
    (hcp : ∀ c, cp = some c → AllSets P c.sets) : AllSets P n.sets := by
  unfold Setup.reopen at hn
  split at hn
  · cases hn
  next n₀ hn₀ =>
    obtain rfl := Except.ok.inj hn
    refine AllSets.finishRecovery hP ?_
    refine AllSets.replay (P := P) log _ ?_
    cases cp with
    | none => exact AllSets.fresh hP hK hn₀
    | some c => exact AllSets.loadCheckpoint (hcp c rfl) n₀

/-- The law holds of the sets in memory and of those in the checkpoint files. -/
structure Host.Lawful (P : Nat → ValidatorSet → Prop) (s : Host) : Prop where
  node : AllSets P s.node.sets
  files : ∀ cp, s.checkpoint = some cp ∨ s.taken = some cp → AllSets P cp.sets

theorem gcLocked_sets (n : Replica) : n.gcLocked.1.sets = n.sets ∧
    ∀ cp, n.gcLocked.2 = some cp → cp.sets = n.sets := by
  constructor
  · rcases gcLocked_cases n with heq | ⟨exec, base, cp, -, -, c⟩
    · rw [heq]
    · exact c.sets
  · intro cp hcp
    unfold Replica.gcLocked at hcp
    split at hcp
    · cases hcp
    split at hcp
    · cases hcp
    split at hcp
    · cases hcp
    · obtain rfl := Option.some.inj hcp
      rfl

variable {s : Host}

theorem Host.Lawful.act (hP : SetLaw P) (hK : K.Founds E P) (h : s.Lawful P) (hs : s.Stocked)
    (e : Event) : (s.act E K e).Lawful P := by
  refine ⟨?_, fun cp hcp => (Host.act_files hcp).elim (h.files cp) fun ht => ?_⟩
  · cases e with
    | call inp ctx writes =>
      have hr : Planted (s.ready writes) := hs.node.congr ⟨rfl, rfl, rfl, rfl⟩
      exact AllSets.handle hP hr rfl h.node ctx inp
    | gc =>
      change AllSets P s.node.gcLocked.1.sets
      rw [(gcLocked_sets s.node).1]
      exact h.node
    | writeCheckpoint => exact h.node
    | rotate => exact h.node
    | restart =>
      unfold Host.act
      dsimp only
      split
      · exact h.node
      next n hn => exact AllSets.reopen hP hK hn fun c hc => h.files c (Or.inl hc)
  · rw [(gcLocked_sets s.node).2 _ ht]
    exact h.node

/-- **A law of sets holds of every known set** in every reachable state, restarts included. -/
theorem Host.lawful (hP : SetLaw P) (hK : K.Founds E P) {n₀ : Replica} (h₀ : K.fresh E = .ok n₀)
    (hrun : (Host.machine E K).Steps (Host.start K n₀) s) : s.Lawful P := by
  refine (hrun.invariant (P := fun s => s.Stocked ∧ s.Lawful P)
    (fun s e h _ => ⟨h.1.act e, h.2.act hP hK h.1 e⟩) ⟨Host.Stocked.start h₀, ?_⟩).2
  exact ⟨fun e S hS => AllSets.fresh hP hK h₀ e S hS,
    fun cp hcp => absurd hcp (by simp [Host.start])⟩

end Laws

/-! ## 2. Sets that can decide a vote -/

/-- A quorum is not empty, and no key is. -/
structure ValidatorSet.Usable (s : ValidatorSet) : Prop where
  quorum : 0 < s.quorum
  keys : ∀ voter pub, s.publicKeys.lookup voter = some pub → pub ≠ []

theorem ValidatorSet.keys_of_apply {s s' : ValidatorSet} {mc : MembershipChange}
    (hkeys : ∀ voter pub, s.publicKeys.lookup voter = some pub → pub ≠ [])
    (h : s.apply mc = some s') {voter : String} {pub : Bytes}
    (hpub : s'.publicKeys.lookup voter = some pub) : pub ≠ [] := by
  obtain ⟨hadmits, rfl⟩ := apply_eq_some_iff.mp h
  rcases (lookup_added mc.add s.publicKeys hadmits.added).mp hpub with ⟨a, ha, -, rfl⟩ | ⟨-, hold⟩
  · -- an added member comes with a key of the right size
    intro hnil
    exact absurd (hadmits.fresh a ha).2 (by simp [hnil, publicKeySize])
  · exact hkeys voter pub hold

theorem usable_law : SetLaw fun _ => ValidatorSet.Usable where
  apply h happly :=
    ⟨by rw [(ValidatorSet.wellFormed_of_apply happly).quorum_eq]; omega,
      fun _ _ hpub => ValidatorSet.keys_of_apply h.keys happly hpub⟩
  pin h hne := by
    refine ⟨h.quorum, fun voter pub hpub => ?_⟩
    rw [GoMap.lookup_insert_of] at hpub
    split at hpub
    · exact Option.some.inj hpub ▸ hne
    · exact h.keys voter pub hpub

variable {E : Env} {K : Setup}

theorem founds_of_genesis {P : Nat → ValidatorSet → Prop}
    (h : P 0 (newValidatorSet 0 (sortStrings (K.config.id :: K.config.peers))
      ((∅ : GoMap String Bytes).insert K.config.id (E.publicKey K.config.privateKey)))) :
    K.Founds E P := by
  intro n hn e S hS
  unfold newReplica at hn
  split at hn
  · cases hn
  dsimp only at hn
  split at hn
  · cases hn
  generalize (if K.config.leader = "" then K.config.id else K.config.leader) = leader at hn
  split at hn
  · cases hn
  · obtain rfl := Except.ok.inj hn
    rw [GoMap.lookup_insert_of] at hS
    split at hS
    next he => exact he ▸ Option.some.inj hS ▸ h
    next => exact absurd hS (by simp [AList.lookup_empty])

theorem founds_usable (hkey : E.publicKey K.config.privateKey ≠ []) :
    K.Founds E fun _ => ValidatorSet.Usable := by
  refine founds_of_genesis ⟨Nat.succ_pos _, fun voter pub hpub => ?_⟩
  change ((∅ : GoMap String Bytes).insert _ _).lookup voter = some pub at hpub
  rw [GoMap.lookup_insert_of] at hpub
  split at hpub
  · exact Option.some.inj hpub ▸ hkey
  · exact absurd hpub (by simp [AList.lookup_empty])

/-- **Every set a host ever knows can decide a vote.** -/
theorem Host.usable (hkey : E.publicKey K.config.privateKey ≠ []) {n₀ : Replica} {s : Host}
    (h₀ : K.fresh E = .ok n₀) (hrun : (Host.machine E K).Steps (Host.start K n₀) s) {e : Nat}
    {S : ValidatorSet} (hS : s.node.sets.lookup e = some S) : S.Usable :=
  (Host.lawful usable_law (founds_usable hkey) h₀ hrun).node e S hS

/-! ## 3. Sets under their own epoch -/

theorem ownEpoch_law : SetLaw fun e S => S.epoch = e where
  apply _ _ := rfl
  pin h _ := h

/-- **Every set a host ever knows is stored under its own epoch.**  The key is the epoch of the set
that was changed plus one, never the epoch a block claims. -/
theorem Host.ownEpoch {n₀ : Replica} {s : Host} (h₀ : K.fresh E = .ok n₀)
    (hrun : (Host.machine E K).Steps (Host.start K n₀) s) :
    AllSets (fun e S => S.epoch = e) s.node.sets :=
  (Host.lawful ownEpoch_law (founds_of_genesis rfl) h₀ hrun).node

end Cachey.HotStuff
