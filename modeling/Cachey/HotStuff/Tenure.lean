/-
# A leader and the certificate of its view

A replica becomes the leader of a view in `maybeActivateLocked` (`viewchange.go`): it COUNTS the
view changes it has stored for the view, against the quorum of its current epoch.  Its proposals
carry those view changes, and `proposalViewCertValidLocked` (`node.go`) CHECKS them: one epoch for
all, distinct members of that epoch's set, a quorum of it, every signature.

* §1  What the check accepts, in any order (`ViewCertificate`).
* §2  What a call does to the stored view changes, and when it activates (`Replica.activates`).
* §3  Runs with the view last activated (`Tenure`): where every step is `Matching`, the proposals
      of a leader carry a certificate that every replica with the leader's sets accepts.
* §4  A transition BETWEEN two view changes: the count is met and the check refuses.
-/
import Cachey.HotStuff.Epochs

namespace Cachey.HotStuff

/-! ## 1. Certificates of a view -/

/-- A quorum of distinct members asked for `view` in epoch `e`. -/
structure ViewCertificate (E : Env) (set : ValidatorSet) (view e : ℕ) (vcs : List ViewChange) :
    Prop where
  each : ∀ x ∈ vcs, x.view = view ∧ x.epoch = e ∧ set.has x.sender = true ∧
    verifyInSet E set x.sender x.sig x.signable = true
  distinct : (vcs.map (·.sender)).Nodup
  quorum : set.quorum ≤ vcs.length
  nonempty : vcs ≠ []

variable {E : Env} {set : ValidatorSet} {view e : ℕ} {vcs : List ViewChange}

theorem ViewCertificate.perm {vcs' : List ViewChange} (h : ViewCertificate E set view e vcs)
    (hp : vcs'.Perm vcs) :
    ViewCertificate E set view e vcs' where
  each := fun x hx => h.each x (hp.mem_iff.mp hx)
  distinct := (hp.map _).nodup_iff.mpr h.distinct
  quorum := hp.length_eq ▸ h.quorum
  nonempty := by
    rintro rfl
    exact h.nonempty hp.symm.eq_nil

theorem viewCertLoop_eq :
    ∀ (vcs : List ViewChange) (seen : List String),
      (∀ x ∈ vcs, x.view = view ∧ x.epoch = e ∧ set.has x.sender = true ∧
        verifyInSet E set x.sender x.sig x.signable = true) →
      (vcs.map (·.sender)).Nodup → (∀ x ∈ vcs, x.sender ∉ seen) →
      Replica.viewCertLoop E set view e seen vcs = some ((vcs.map (·.sender)).reverse ++ seen)
  | [], seen, _, _, _ => rfl
  | vc :: vcs, seen, heach, hd, hseen => by
    obtain ⟨hview, hep, hhas, hver⟩ := heach vc List.mem_cons_self
    obtain ⟨hnew, hd⟩ := List.nodup_cons.mp hd
    have hpass : ¬ (vc.view ≠ view ∨ vc.epoch ≠ e ∨ ¬ set.has vc.sender ∨ vc.sender ∈ seen ∨
        ¬ verifyInSet E set vc.sender vc.sig vc.signable) := by
      simp [hview, hep, hhas, hver, hseen vc List.mem_cons_self]
    rw [Replica.viewCertLoop, if_neg hpass,
      viewCertLoop_eq vcs (vc.sender :: seen) (fun x hx => heach x (List.mem_cons_of_mem _ hx)) hd]
    · simp
    · intro x hx hmem
      rcases List.mem_cons.mp hmem with heq | hmem
      · exact hnew (List.mem_map.mpr ⟨x, hx, heq⟩)
      · exact hseen x (List.mem_cons_of_mem _ hx) hmem

/-- **A certificate is accepted** wherever its epoch's set is known. -/
theorem ViewCertificate.accepted (h : ViewCertificate E set view e vcs) {m : Replica}
    (hm : m.sets.lookup e = some set) : m.proposalViewCertValidLocked E view vcs = true := by
  have hloop := viewCertLoop_eq vcs [] h.each h.distinct (by simp)
  have hq := h.quorum
  cases vcs with
  | nil => exact absurd rfl h.nonempty
  | cons first rest =>
    obtain rfl : first.epoch = e := (h.each first List.mem_cons_self).2.1
    unfold Replica.proposalViewCertValidLocked
    dsimp only
    rw [hm]
    dsimp only
    rw [if_neg (by omega), hloop]
    simpa using hq

theorem viewCertLoop_spec :
    ∀ (vcs : List ViewChange) (seen out : List String),
      Replica.viewCertLoop E set view e seen vcs = some out →
      (∀ x ∈ vcs, x.view = view ∧ x.epoch = e ∧ set.has x.sender = true ∧
        verifyInSet E set x.sender x.sig x.signable = true) ∧
      (vcs.map (·.sender)).Nodup ∧ ∀ x ∈ vcs, x.sender ∉ seen
  | [], _, _, _ => by simp
  | vc :: vcs, seen, out, h => by
    rw [Replica.viewCertLoop] at h
    split at h
    · cases h
    next hpass =>
      obtain ⟨heach, hd, hseen⟩ := viewCertLoop_spec vcs _ out h
      simp only [not_or, not_not, ne_eq] at hpass
      obtain ⟨hview, hep, hhas, hnew, hver⟩ := hpass
      refine ⟨?_, List.nodup_cons.mpr ⟨fun hmem => ?_, hd⟩, ?_⟩
      · rintro x (_ | ⟨_, hx⟩)
        · exact ⟨hview, hep, hhas, hver⟩
        · exact heach x hx
      · obtain ⟨x, hx, heq⟩ := List.mem_map.mp hmem
        exact hseen x hx (heq ▸ List.mem_cons_self)
      · rintro x (_ | ⟨_, hx⟩)
        · exact hnew
        · exact fun hmem => hseen x hx (List.mem_cons_of_mem _ hmem)

theorem ViewCertificate.of_accepted {n : Replica}
    (h : n.proposalViewCertValidLocked E view vcs = true) :
    ∃ e set, n.sets.lookup e = some set ∧ ViewCertificate E set view e vcs := by
  unfold Replica.proposalViewCertValidLocked at h
  split at h
  · cases h
  next first rest =>
  split at h
  · cases h
  next set hset =>
  split at h
  · cases h
  next hlen =>
  split at h
  · cases h
  next seen hloop =>
    obtain ⟨heach, hd, _⟩ := viewCertLoop_spec _ _ _ hloop
    exact ⟨_, set, hset, heach, hd, by omega, by simp⟩

theorem nodup_senders {m : GoMap String ViewChange}
    (h : ∀ k x, m.lookup k = some x → x.sender = k) : (m.values.map (·.sender)).Nodup := by
  have hkeys : m.values.map (·.sender) = m.keys := by
    unfold GoMap.values AList.keys List.keys
    rw [List.map_map]
    refine List.map_congr_left fun e he => ?_
    exact h e.1 e.2 (AList.mem_lookup_iff.mpr he)
  rw [hkeys]
  exact m.nodupKeys

/-! ## 2. Storing view changes

`addVC` stores whatever was signed for the epoch of the moment; `maybeActivateLocked` counts what is
stored.  Between two view changes the epoch may have moved on, and nobody goes back to the earlier
one. -/

section Storing

variable {E : Env} {C : Ctx} {S : Scope} {n n' : Replica}

theorem Moves.view_le (h : Moves E S n n') : n.view ≤ n'.view := by
  refine h.invariant (P := fun m => n.view ≤ m.view) (fun m m' hle hm => hle.trans ?_) (le_refl _)
  cases hm with
  | aside ha => exact ha.view
  | insert b _ _ _ _ _ => obtain ⟨w, o, heq⟩ := record_eq b m; rw [heq]
  | own cmd _ _ _ => obtain ⟨w, o, heq⟩ := record_eq (m.nextBlock cmd) m; rw [heq]; exact le_refl _
  | fold qc _ _ => exact (Folding.onNewQCLocked (E := E) qc m).view.ge
  | adopt qc _ _ _ => exact le_refl _
  | vote b _ _ _ => rcases castVote_eq (E := E) b m with heq | ⟨_, w, o, heq⟩ <;> rw [heq]
  | collect vc _ => exact le_refl _

theorem Moves.vcs_eq (hc : S.collects = []) (h : Moves E S n n') : n'.vcs = n.vcs := by
  refine h.invariant (P := fun m => m.vcs = n.vcs) (fun m m' heq hm => ?_) rfl
  rcases hm.vcs_cases with hsame | ⟨vc, hmem, _⟩
  · exact hsame.trans heq
  · exact absurd hmem (by simp [hc])

theorem Moves.config_eq (hf : S.folds = []) (h : Moves E S n n') : n'.config = n.config := by
  refine h.invariant (P := fun m => m.config = n.config) (fun m m' heq hm => Eq.trans ?_ heq) rfl
  cases hm with
  | aside ha => exact Prod.ext ha.sets ha.epoch
  | insert b _ _ _ _ _ => obtain ⟨w, o, heq⟩ := record_eq b m; rw [heq]; rfl
  | own cmd _ _ _ => obtain ⟨w, o, heq⟩ := record_eq (m.nextBlock cmd) m; rw [heq]; rfl
  | fold qc hmem _ => exact absurd hmem (by simp [hf])
  | adopt qc _ _ _ => rfl
  | vote b _ _ _ => rcases castVote_eq (E := E) b m with heq | ⟨_, w, o, heq⟩ <;> rw [heq]; rfl
  | collect vc _ => rfl

theorem activation_keeps (view : ℕ) (n : Replica) :
    ((n.maybeActivateLocked E C view).1.sendFetch (n.maybeActivateLocked E C view).2).vcs = n.vcs ∧
      ((n.maybeActivateLocked E C view).1.sendFetch
        (n.maybeActivateLocked E C view).2).config = n.config := by
  have htol : Tolerates (n.basing E C view) fun m => m.vcs = n.vcs ∧ m.config = n.config := {
    note := by
      intro x y hx hy _
      rw [hy]
      exact hx
    fetch := fun _ _ _ hm => hm
    sync := fun _ _ _ _ _ hm => hm
    answered := fun _ hm => hm
    activate := fun _ hm => hm
    send := fun _ _ hm => hm
    signed := fun _ hm => hm }
  refine htol.sendFetch _ (htol.maybeActivateLocked ⟨rfl, rfl⟩ (fun _ _ _ _ => ?_) (fun _ h => h)
    (fun _ hm => hm) fun _ hm _ _ _ _ => hm)
  obtain ⟨v, l, a, k, heq⟩ := enterViewLockedEpoch_eq view n.epoch n
  unfold Replica.enterViewLocked
  rw [heq]
  exact ⟨rfl, rfl⟩

theorem addVC_cases (vc : ViewChange) (n : Replica) :
    (n.addVC vc).config = n.config ∧ (n.addVC vc).id = n.id ∧ (n.addVC vc).leader0 = n.leader0 ∧
    (((n.addVC vc).vcs = n.vcs ∧ ∀ set, n.sets.lookup n.epoch = some set →
        set.has vc.sender = true → n.leaderOfEpoch n.epoch vc.view ≠ some n.id) ∨
      ∃ set, n.sets.lookup n.epoch = some set ∧ set.has vc.sender = true ∧
        n.leaderOfEpoch n.epoch vc.view = some n.id ∧
        (n.addVC vc).vcs = n.vcs.insert vc.view ((n.vcsOf vc.view).insert vc.sender vc)) := by
  unfold Replica.addVC
  split
  next hset => exact ⟨rfl, rfl, rfl, Or.inl ⟨rfl, fun S hS => absurd (hset.symm.trans hS) (by simp)⟩⟩
  next set hset =>
    split
    next hhas =>
      refine ⟨rfl, rfl, rfl, Or.inl ⟨rfl, fun S hS hh => absurd hh ?_⟩⟩
      rw [← Option.some.inj (hset.symm.trans hS)]
      exact hhas
    next hhas =>
      have hhas : set.has vc.sender = true := by simpa using hhas
      split
      next hl => exact ⟨rfl, rfl, rfl, Or.inl ⟨rfl, fun _ _ _ => by rw [hl]; simp⟩⟩
      next l hl =>
        split
        next hne => exact ⟨rfl, rfl, rfl, Or.inl ⟨rfl, fun _ _ _ h => hne (by simpa [hl] using h.symm)⟩⟩
        next heq =>
          have heq : n.id = l := by simpa using heq
          exact ⟨rfl, rfl, rfl, Or.inr ⟨set, hset, hhas, by rw [hl, heq], rfl⟩⟩

/-- The base is at hand, or there is nobody to ask for it. -/
def Replica.baseReady (C : Ctx) (high : QC) (n : Replica) : Bool :=
  high.height ≤ n.qcHigh.height || high.nodeID ∈ n.blocks || n.vcReporterLocked C high = ""

theorem adoptBaseLocked_active (high : QC) (hl : n.id = n.leader) :
    (n.adoptBaseLocked E C high).1.active = (n.baseReady C high || n.active) ∧
      (n.adoptBaseLocked E C high).1.view = n.view ∧
      (n.adoptBaseLocked E C high).1.leader = n.leader := by
  unfold Replica.adoptBaseLocked Replica.baseReady
  rw [if_neg (not_not.mpr hl)]
  split
  next hgt =>
    have hle : ¬ high.height ≤ n.qcHigh.height := by omega
    split
    next hnot =>
      dsimp only
      split
      next hr => simp [hr, Replica.activateWithBaseLocked, hl]
      next hr =>
        split
        · simp [hle, hnot, hr]
        · simp [hle, hnot, hr, Replica.markFetchLocked]
    next hin =>
      have hin : high.nodeID ∈ n.blocks := by simpa using hin
      rw [adoptQC_eq]
      simp [hin, Replica.activateWithBaseLocked, hl]
  next hle =>
    have hle : high.height ≤ n.qcHigh.height := by omega
    simp [hle, Replica.activateWithBaseLocked, hl]

/-- `maybeActivateLocked` activates the replica as the leader of `view`: it joins the view, and it
need not wait for the block of its base. -/
def Replica.activates (E : Env) (C : Ctx) (view : ℕ) (n : Replica) : Bool :=
  n.joins view && { n with view := view }.baseReady C
    (n.highestReported E (C.scan.order (n.vcsOf view).values))

/-- **When it activates, the replica is the active leader of the view; when not, it is active only
if it was.** -/
theorem maybeActivateLocked_active (view : ℕ) (n : Replica) :
    (n.activates E C view = true → (n.maybeActivateLocked E C view).1.active = true ∧
      (n.maybeActivateLocked E C view).1.view = view ∧
      (n.maybeActivateLocked E C view).1.leader = n.id) ∧
    (n.activates E C view = false → (n.maybeActivateLocked E C view).1.active = true →
      n.active = true) := by
  unfold Replica.activates Replica.joins Replica.maybeActivateLocked
  cases hset : n.sets.lookup n.epoch with
  | none => simp
  | some set =>
    cases hl : n.leaderOfEpoch n.epoch view with
    | none => simp [Replica.crash]
    | some l =>
      dsimp only
      by_cases hid : n.id = l
      case neg => simp [hid, Ne.symm hid]
      subst hid
      rw [if_neg (not_not.mpr rfl)]
      by_cases hlen : (n.vcsOf view).len < set.quorum
      · rw [if_pos hlen]
        simp [Nat.not_le.mpr hlen]
      rw [if_neg hlen]
      have hlen : set.quorum ≤ (n.vcsOf view).len := by omega
      by_cases hgt : n.view < view
      · -- the view is entered: the replica is its leader
        have hent : n.enterViewLocked view =
            { n with view := view, leader := n.id, active := false } := by
          unfold Replica.enterViewLocked Replica.enterViewLockedEpoch
          rw [if_neg (by omega), hl]
        rw [if_pos hgt, hent, if_neg (by simp)]
        obtain ⟨hact, hv, hld⟩ := adoptBaseLocked_active (E := E) (C := C)
          (n := { n with view := view, leader := n.id, active := false })
          (n.highestReported E (C.scan.order (n.vcsOf view).values)) rfl
        have hready : Replica.baseReady C (n.highestReported E (C.scan.order (n.vcsOf view).values))
            { n with view := view, leader := n.id, active := false } =
          { n with view := view }.baseReady C
            (n.highestReported E (C.scan.order (n.vcsOf view).values)) := rfl
        rw [hready, Bool.or_false] at hact
        refine ⟨fun h => ⟨hact.trans (Bool.and_eq_true_iff.mp h).2, hv, hld⟩, fun h ha => ?_⟩
        have hb := hact.symm.trans ha
        simp [hlen, hgt, hb] at h
      · rw [if_neg hgt]
        by_cases hview : view = n.view
        case neg => simp [hview, Ne.symm hview, hgt]
        subst hview
        rw [if_neg (not_not.mpr rfl)]
        by_cases hlead : n.leader = n.id
        case neg =>
          have hsame : (n.adoptBaseLocked E C (n.highestReported E
              (C.scan.order (n.vcsOf n.view).values))).1 = n := by
            unfold Replica.adoptBaseLocked
            rw [if_pos (Ne.symm hlead)]
          rw [hsame]
          simp [hlead]
        obtain ⟨hact, hv, hld⟩ := adoptBaseLocked_active (E := E) (C := C) (n := n)
          (n.highestReported E (C.scan.order (n.vcsOf n.view).values)) hlead.symm
        refine ⟨fun h => ⟨?_, hv, hld.trans hlead⟩, fun h ha => ?_⟩
        · have hb : n.baseReady C (n.highestReported E (C.scan.order (n.vcsOf n.view).values)) =
            true := (Bool.and_eq_true_iff.mp h).2
          rw [hact, hb, Bool.true_or]
        · have hb : n.baseReady C (n.highestReported E (C.scan.order (n.vcsOf n.view).values)) =
            false := by
            refine Bool.eq_false_iff.mpr fun hb => ?_
            have hb : { n with view := n.view }.baseReady C
              (n.highestReported E (C.scan.order (n.vcsOf n.view).values)) = true := hb
            rw [hb] at h
            simp [hlen, hlead] at h
          rwa [hact, hb, Bool.false_or] at ha

theorem leader_of_activates {view : ℕ} (h : n.activates E C view = true) :
    ∃ set, n.sets.lookup n.epoch = some set ∧ n.leaderOfEpoch n.epoch view = some n.id := by
  unfold Replica.activates Replica.joins at h
  cases hset : n.sets.lookup n.epoch with
  | none => simp [hset] at h
  | some set =>
    simp only [hset, Bool.and_eq_true, decide_eq_true_eq] at h
    exact ⟨set, rfl, h.1.1.1⟩

theorem sendFetch_view (f : Option Fetch) (n : Replica) : (n.sendFetch f).view = n.view := by
  unfold Replica.sendFetch
  split
  · rfl
  · split <;> rfl

theorem voteForBlockLocked_views (v : Vote) (n : Replica) :
    (n.voteForBlockLocked E v).view = n.view ∧ (n.voteForBlockLocked E v).vcs = n.vcs :=
  voteForBlockLocked_keeps (P := fun m => m.view = n.view ∧ m.vcs = n.vcs) ⟨rfl, rfl⟩
    (fun _ _ _ _ _ => ⟨rfl, rfl⟩) fun _ _ _ _ _ _ =>
      ⟨(Folding.onNewQCLocked (E := E) _ _).view, (Folding.onNewQCLocked (E := E) _ _).vcs⟩

theorem proposeLocked_viewChanges (cmd : Bytes) (n : Replica) (hv : 0 < n.view) :
    (n.proposeLocked E C cmd).2.viewChanges = C.scan.order (n.vcsOf n.view).values := by
  obtain ⟨e, p, _, _, hloc, hvcs⟩ := proposeLocked_eq (E := E) (C := C) cmd n
  obtain ⟨hview, hv'⟩ := voteForBlockLocked_views (E := E) (n.ownVote E cmd) (n.proposed E cmd)
  obtain ⟨w, o, hprop⟩ := proposed_eq (E := E) cmd n
  rw [hprop] at hview hv' hvcs
  unfold Replica.vcsOf at hvcs ⊢
  dsimp only at hview hv' hvcs
  rw [hloc, hvcs, hview, hv', if_pos hv]

end Storing

/-! ## 3. Runs -/

/-- The view last activated, after a call. -/
def Replica.leads (E : Env) (C : Ctx) (input : Input) (led : Option ℕ) (n : Replica) : Option ℕ :=
  match n.gathering E input with
  | none => led
  | some (m, vc) => if (m.addVC vc).activates E C vc.view then some vc.view else led

/-- **The stored view changes match the configuration.**

A call may commit transitions: one that is due does not replace the set of an epoch in which view
changes are stored, and does not open an epoch below that of the certificate in use.  A view change
that is stored is signed with the key its sender has in the set; and if it makes the replica the
leader or the replica leads the view already, then all the view changes stored for the view are of
the current epoch, and are a quorum of its set. -/
def Replica.Matching (E : Env) (C : Ctx) (input : Input) (led : Option ℕ) (n : Replica) : Prop :=
  (∀ e ∈ n.vcs.entries, n.view ≤ e.1 → ∀ vc ∈ GoMap.values e.2, ∀ x ∈ n.due E C input,
    x.opens ≠ vc.epoch ∧ (led = some e.1 → vc.epoch ≤ x.opens)) ∧
  ∀ a ∈ n.gathering E input, a.1.leaderOfEpoch a.1.epoch a.2.view = some a.1.id →
    ∀ set ∈ n.sets.lookup n.epoch,
      (set.has a.2.sender = true ∧ verifyInSet E set a.2.sender a.2.sig a.2.signable = true) ∧
      ((a.1.addVC a.2).activates E C a.2.view = true ∨ led = some a.2.view →
        (∀ x ∈ ((a.1.addVC a.2).vcsOf a.2.view).values, x.epoch = n.epoch) ∧
          set.quorum ≤ ((a.1.addVC a.2).vcsOf a.2.view).len)

instance (E : Env) (C : Ctx) (input : Input) (led : Option ℕ) (n : Replica) :
    Decidable (n.Matching E C input led) := by
  unfold Replica.Matching
  infer_instance

/-- What is stored in a replica that last activated in view `led`. -/
structure Held (E : Env) (led : Option ℕ) (n : Replica) : Prop where
  stored : ∀ w, n.view ≤ w → ∀ k x, (n.vcsOf w).lookup k = some x →
    x.sender = k ∧ x.view = w ∧ ∃ set, n.sets.lookup x.epoch = some set ∧
      set.has x.sender = true ∧ verifyInSet E set x.sender x.sig x.signable = true
  past : ∀ v, led = some v → v ≤ n.view
  leading : led = some n.view → ∃ e set, e ≤ n.epoch ∧ n.sets.lookup e = some set ∧
    set.quorum ≤ (n.vcsOf n.view).len ∧ (n.vcsOf n.view).values ≠ [] ∧
    ∀ x ∈ (n.vcsOf n.view).values, x.epoch = e

namespace Held

variable {E : Env} {led : Option ℕ} {n n' : Replica}

theorem opened (h : n.vcs = ∅) : Held E none n := by
  refine ⟨fun w _ k x hx => ?_, fun v hv => absurd hv (by simp), fun hv => absurd hv (by simp)⟩
  unfold Replica.vcsOf at hx
  rw [h] at hx
  exact absurd hx (by simp [AList.lookup_empty])

theorem later (h : Held E led n) (hvcs : n'.vcs = n.vcs) (hview : n.view ≤ n'.view)
    (hkeep : ∀ w, n.view ≤ w → ∀ k x, (n.vcsOf w).lookup k = some x →
      n'.sets.lookup x.epoch = n.sets.lookup x.epoch ∧ (led = some w → x.epoch ≤ n'.epoch)) :
    Held E led n' := by
  have hvcsOf : ∀ w, n'.vcsOf w = n.vcsOf w := by
    intro w
    unfold Replica.vcsOf
    rw [hvcs]
  refine ⟨fun w hw k x hx => ?_, fun v hv => (h.past v hv).trans hview, fun hv => ?_⟩
  · rw [hvcsOf] at hx
    obtain ⟨hk, hxw, set, hset, hrest⟩ := h.stored w (hview.trans hw) k x hx
    exact ⟨hk, hxw, set, (hkeep w (hview.trans hw) k x hx).1.trans hset, hrest⟩
  · have hsame : n'.view = n.view := le_antisymm (h.past _ hv) hview
    rw [hsame] at hv
    obtain ⟨e, set, _, hset, hq, hne, hall⟩ := h.leading hv
    obtain ⟨x, hx⟩ := List.exists_mem_of_ne_nil _ hne
    obtain ⟨k, hk⟩ := GoMap.mem_values_iff.mp hx
    obtain ⟨hkept, hup⟩ := hkeep _ (le_refl _) k x hk
    rw [hall x hx] at hkept hup
    rw [hsame, hvcsOf]
    exact ⟨e, set, hup hv, hkept.trans hset, hq, hne, hall⟩

theorem congr (h : Held E led n) (hvcs : n'.vcs = n.vcs) (hview : n.view ≤ n'.view)
    (hconf : n'.config = n.config) : Held E led n' := by
  obtain ⟨hsets, hepoch⟩ := Prod.mk.inj hconf
  refine h.later hvcs hview fun w hw k x hx => ⟨by rw [hsets], fun hv => ?_⟩
  obtain rfl : w = n.view := le_antisymm (h.past w hv) hw
  obtain ⟨e, _, hle, _, _, _, hall⟩ := h.leading hv
  rw [hall x (GoMap.mem_values_of_lookup hx), hepoch]
  exact hle

theorem store (h : Held E led n) {vc : ViewChange} {set : ValidatorSet}
    (hvcs : n'.vcs = n.vcs.insert vc.view ((n.vcsOf vc.view).insert vc.sender vc))
    (hview : n.view ≤ n'.view) (hconf : n'.config = n.config) (hep : vc.epoch = n.epoch)
    (hset : n.sets.lookup n.epoch = some set) (hhas : set.has vc.sender = true)
    (hver : verifyInSet E set vc.sender vc.sig vc.signable = true)
    (hled : led = some vc.view → (∀ x ∈ (n'.vcsOf vc.view).values, x.epoch = n.epoch) ∧
      set.quorum ≤ (n'.vcsOf vc.view).len) : Held E led n' := by
  obtain ⟨hsets, hepoch⟩ := Prod.mk.inj hconf
  refine ⟨fun w hw k x hx => ?_, fun v hv => (h.past v hv).trans hview, fun hv => ?_⟩
  · have hold : ∀ y, (n.vcsOf w).lookup k = some y → y.sender = k ∧ y.view = w ∧
        ∃ set, n'.sets.lookup y.epoch = some set ∧ set.has y.sender = true ∧
          verifyInSet E set y.sender y.sig y.signable = true := by
      rw [hsets]
      exact h.stored w (hview.trans hw) k
    rw [vcsOf_insert hvcs] at hx
    split at hx
    next heq =>
      subst heq
      rw [GoMap.lookup_insert_of] at hx
      split at hx
      next hk =>
        obtain rfl := Option.some.inj hx
        exact ⟨hk.symm, rfl, set, by rw [hsets, hep, hset], hhas, hver⟩
      next => exact hold x hx
    next => exact hold x hx
  · have hsame : n'.view = n.view := le_antisymm (h.past _ hv) hview
    rw [hsame] at hv ⊢
    obtain ⟨e, S, hle, hS, hq, hne, hall⟩ := h.leading hv
    by_cases hvc : vc.view = n.view
    · obtain ⟨hall', hq'⟩ := hled (hvc ▸ hv)
      rw [hvc] at hall' hq'
      refine ⟨n.epoch, set, hepoch.ge, by rw [hsets, hset], hq', ?_, hall'⟩
      rw [vcsOf_insert hvcs, if_pos hvc.symm]
      exact List.ne_nil_of_mem (GoMap.mem_values_of_lookup (AList.lookup_insert _))
    · have hof : n'.vcsOf n.view = n.vcsOf n.view := by
        rw [vcsOf_insert hvcs, if_neg (Ne.symm hvc)]
      rw [hof, hsets, hepoch]
      exact ⟨e, S, hle, hS, hq, hne, hall⟩

theorem forall_stored {P : ℕ → ViewChange → Prop}
    (h : ∀ e ∈ n.vcs.entries, n.view ≤ e.1 → ∀ x ∈ GoMap.values e.2, P e.1 x) (w : ℕ)
    (hw : n.view ≤ w) (k : String) (x : ViewChange) (hx : (n.vcsOf w).lookup k = some x) :
    P w x := by
  unfold Replica.vcsOf at hx
  cases hm : n.vcs.lookup w with
  | none => simp [hm, AList.lookup_empty] at hx
  | some m =>
    rw [hm] at hx
    exact h ⟨w, m⟩ (AList.mem_lookup_iff.mp hm) hw x (GoMap.mem_values_of_lookup hx)

/-- The transitions that are due leave the sets of the stored view changes alone, and do not take
the replica below the certificate in use. -/
theorem transitions {C : Ctx} {input : Input} (h : Held E led n) (hp : Planted n)
    (hout : n.out = []) (hidx : Indexed n.sets)
    (hdue : ∀ e ∈ n.vcs.entries, n.view ≤ e.1 → ∀ vc ∈ GoMap.values e.2, ∀ x ∈ n.due E C input,
      x.opens ≠ vc.epoch ∧ (led = some e.1 → vc.epoch ≤ x.opens))
    (w : ℕ) (hw : n.view ≤ w) (k : String) (vc : ViewChange)
    (hvc : (n.vcsOf w).lookup k = some vc) :
    (n.handle E C input).sets.lookup vc.epoch = n.sets.lookup vc.epoch ∧
      (led = some w → vc.epoch ≤ (n.handle E C input).epoch) := by
  have hdue := forall_stored (P := fun w vc => ∀ x ∈ n.due E C input,
    x.opens ≠ vc.epoch ∧ (led = some w → vc.epoch ≤ x.opens)) hdue w hw k vc hvc
  refine hp.transitions (Q := fun c => c.1.lookup vc.epoch = n.sets.lookup vc.epoch ∧
    (led = some w → vc.epoch ≤ c.2)) hout hidx (fun c x hx mc old ns _ _ _ hc => ?_)
    ⟨rfl, fun hled => ?_⟩
  · obtain ⟨hne, hle⟩ := hdue x hx
    refine ⟨?_, hle⟩
    rw [GoMap.lookup_insert_of, if_neg (Ne.symm hne)]
    exact hc.1
  · obtain rfl : w = n.view := le_antisymm (h.past w hled) hw
    obtain ⟨e, _, hle, _, _, _, hall⟩ := h.leading hled
    rw [hall vc (GoMap.mem_values_of_lookup hvc)]
    exact hle

theorem handle {C : Ctx} {input : Input} (h : Held E led n) (hp : Planted n) (hout : n.out = [])
    (hidx : Indexed n.sets) (hm : n.Matching E C input led) :
    Held E (n.leads E C input led) (n.handle E C input) := by
  obtain ⟨hdue, hgath⟩ := hm
  obtain ⟨hmoves, _⟩ := handle_moves (E := E) (C := C) hp.parked input
  unfold Replica.leads
  cases hg : n.gathering E input with
  | none =>
    exact h.later (hmoves.vcs_eq (by simp [Replica.scope, hg])) hmoves.view_le
      (h.transitions hp hout hidx hdue)
  | some a =>
    obtain ⟨m, vc⟩ := a
    obtain ⟨ha, hep, heq, _⟩ := gathering_spec (C := C) hg
    have hvcs := ha.vcs
    have hconf : m.config = n.config := Prod.ext ha.sets ha.epoch
    have hid := ha.id
    have hview := ha.view
    obtain ⟨hvcs', hconf'⟩ := activation_keeps (E := E) (C := C) vc.view (m.addVC vc)
    obtain ⟨hadd, hid', hl', hcases⟩ := addVC_cases vc m
    rw [← heq] at hvcs' hconf'
    have hview := hmoves.view_le
    have hof : ∀ w, (n.handle E C input).vcsOf w = (m.addVC vc).vcsOf w := by
      intro w
      unfold Replica.vcsOf
      rw [hvcs']
    obtain ⟨hmsets, hmepoch⟩ := Prod.mk.inj hconf
    rcases hcases with ⟨hsame, hnot⟩ | ⟨set, hset, hhas, hlead, hins⟩
    · -- nothing is stored, and nobody is activated
      have hno : (m.addVC vc).activates E C vc.view = false := by
        refine Bool.eq_false_iff.mpr fun hact => ?_
        obtain ⟨set, hset, hlead⟩ := leader_of_activates hact
        obtain ⟨hasets, haepoch⟩ := Prod.mk.inj hadd
        rw [hasets, haepoch] at hset
        rw [hid', haepoch] at hlead
        have hlead : m.leaderOfEpoch m.epoch vc.view = some m.id := by
          unfold Replica.leaderOfEpoch at hlead ⊢
          rwa [hasets, hl'] at hlead
        rw [hmsets, hmepoch] at hset
        have hhas := (hgath _ hg hlead set hset).1.1
        rw [← hmsets, ← hmepoch] at hset
        exact hnot set hset hhas hlead
      dsimp only
      rw [hno]
      exact h.congr (hvcs'.trans (hsame.trans hvcs)) hview (hconf'.trans (hadd.trans hconf))
    · have hset' : n.sets.lookup n.epoch = some set := by rw [← hmsets, ← hmepoch, hset]
      obtain ⟨⟨_, hver⟩, hmatch⟩ := hgath _ hg hlead set hset'
      have hins' : (n.handle E C input).vcs =
          n.vcs.insert vc.view ((n.vcsOf vc.view).insert vc.sender vc) := by
        unfold Replica.vcsOf at hins ⊢
        rw [hvcs', hins, hvcs]
      have hmatch : (m.addVC vc).activates E C vc.view = true ∨ led = some vc.view →
          (∀ x ∈ ((n.handle E C input).vcsOf vc.view).values, x.epoch = n.epoch) ∧
            set.quorum ≤ ((n.handle E C input).vcsOf vc.view).len := by
        rw [hof]
        exact hmatch
      have hstored := h.store hins' hview (hconf'.trans (hadd.trans hconf)) hep hset' hhas hver
        fun hv => hmatch (Or.inr hv)
      dsimp only
      split
      next hact =>
        -- the view is led from here on
        obtain ⟨hall, hq⟩ := hmatch (Or.inl hact)
        have hv : (n.handle E C input).view = vc.view := by
          rw [heq, sendFetch_view]
          exact ((maybeActivateLocked_active vc.view (m.addVC vc)).1 hact).2.1
        obtain ⟨hsets, hepoch⟩ := Prod.mk.inj (hconf'.trans (hadd.trans hconf))
        refine ⟨hstored.stored, fun v hvv => ?_, fun _ => ?_⟩
        · rw [hv]
          exact (Option.some.inj hvv).ge
        · rw [hv]
          refine ⟨n.epoch, set, hepoch.ge, by rw [hsets, hset'], hq, ?_, hall⟩
          rw [vcsOf_insert hins', if_pos rfl]
          exact List.ne_nil_of_mem (GoMap.mem_values_of_lookup (AList.lookup_insert _))
      next => exact hstored

end Held

/-- A host with the view in which `maybeActivateLocked` last activated its replica. -/
structure Tenure where
  host : Host
  led : Option ℕ

namespace Tenure

/-- The view last activated, after an event. -/
def leads (E : Env) (K : Setup) (s : Tenure) : Event → Option ℕ
  | .call input ctx writes => (s.host.ready writes).leads E ctx input s.led
  | .restart =>
    match K.reopen E s.host.checkpoint s.host.log with
    | .error _ => s.led
    | .ok _ => none
  | _ => s.led

/-- The host as a machine, with the view last activated. -/
abbrev machine (E : Env) (K : Setup) : Machine Tenure Event where
  enabled := fun s e => s.host.Enabled e
  act := fun s e => { host := s.host.act E K e, led := s.leads E K e }

/-- Every call matches the view changes stored before it. -/
def Matching (E : Env) (s : Tenure) : Event → Prop
  | .call input ctx writes => (s.host.ready writes).Matching E ctx input s.led
  | _ => True

instance (E : Env) (s : Tenure) (e : Event) : Decidable (s.Matching E e) :=
  match e with
  | .call input ctx writes =>
    inferInstanceAs (Decidable ((s.host.ready writes).Matching E ctx input s.led))
  | .gc | .writeCheckpoint | .rotate | .restart => inferInstanceAs (Decidable True)

instance (E : Env) (K : Setup) (s : Tenure) (e : Event) :
    Decidable (((machine E K).restrict (Matching E)).enabled s e) :=
  inferInstanceAs (Decidable (s.host.Enabled e ∧ s.Matching E e))

variable {E : Env} {K : Setup}

theorem held_act {s : Tenure} {e : Event} (hst : s.host.Stocked) (hidx : Indexed s.host.node.sets)
    (h : Held E s.led s.host.node) (hm : s.Matching E e) : Held E (s.leads E K e) (s.host.act E K e).node := by
  cases e with
  | call input ctx writes =>
    exact Held.handle (h.congr rfl (le_refl _) rfl) (hst.node.congr ⟨rfl, rfl, rfl, rfl⟩) rfl hidx hm
  | gc =>
    change Held E s.led s.host.node.gcLocked.1
    rcases gcLocked_cases s.host.node with heq | ⟨exec, base, cp, _, _, c⟩
    · rw [heq]
      exact h
    · exact h.congr c.vcs c.view.ge (Prod.ext c.sets c.epoch)
  | writeCheckpoint => exact h
  | rotate => exact h
  | restart =>
    unfold leads Host.act
    cases hr : K.reopen E s.host.checkpoint s.host.log with
    | error e => exact h
    | ok n => exact Held.opened (Setup.reopen_vcs hr)

/-- **A leader's certificate is accepted.**  In every run whose steps match, while the replica is in
the view in which `maybeActivateLocked` activated it, its proposals carry view changes that every
replica with the same sets up to its epoch accepts, whatever the order they are listed in. -/
theorem certificate_accepted {n₀ : Replica} {s : Tenure} (h₀ : K.fresh E = .ok n₀)
    (hrun : ((machine E K).restrict (Matching E)).Steps
      { host := Host.start K n₀, led := none } s)
    {v : ℕ} (hled : s.led = some v) (hview : s.host.node.view = v) (hv : 0 < v) (C : Ctx)
    (cmd : Bytes) {m : Replica}
    (hm : ∀ e ≤ s.host.node.epoch, m.sets.lookup e = s.host.node.sets.lookup e) :
    m.proposalViewCertValidLocked E v (s.host.node.proposeLocked E C cmd).2.viewChanges = true := by
  have hfounds : K.Founds E fun e S => S.epoch = e := founds_of_genesis rfl
  have hheld : s.host.Stocked ∧ s.host.Lawful (fun e S => S.epoch = e) ∧
      Held E s.led s.host.node := by
    refine hrun.invariant (P := fun s => s.host.Stocked ∧ s.host.Lawful (fun e S => S.epoch = e) ∧
      Held E s.led s.host.node) (fun s e h (hen : s.host.Enabled e ∧ s.Matching E e) => ?_) ?_
    · obtain ⟨hst, hlaw, hheld⟩ := h
      exact ⟨hst.act e, hlaw.act ownEpoch_law hfounds hst e,
        held_act hst (indexed_iff.mpr hlaw.node) hheld hen.2⟩
    · exact ⟨Host.Stocked.start h₀, Host.lawful ownEpoch_law hfounds h₀ (Machine.Steps.refl _),
        Held.opened (Newborn.fresh h₀).vcs⟩
  obtain ⟨_, _, h⟩ := hheld
  obtain ⟨e, set, hle, hset, hq, hne, hall⟩ := h.leading (hview ▸ hled)
  rw [proposeLocked_viewChanges cmd _ (by omega), hview]
  rw [hview] at hq hne hall
  have hcert : ViewCertificate E set v e (s.host.node.vcsOf v).values := by
    refine ⟨fun x hx => ?_, ?_, ?_, hne⟩
    · obtain ⟨k, hk⟩ := GoMap.mem_values_iff.mp hx
      obtain ⟨_, hxv, S, hS, hhas, hver⟩ := h.stored v hview.le k x hk
      rw [hall x hx, hset] at hS
      obtain rfl := Option.some.inj hS
      exact ⟨hxv, hall x hx, hhas, hver⟩
    · exact nodup_senders fun k x hk => (h.stored v hview.le k x hk).1
    · simpa [GoMap.values, GoMap.len] using hq
  exact (hcert.perm (C.scan.perm _)).accepted ((hm e hle).trans hset)

/-! ## 4. A transition between two view changes

`L1` follows the chain that removes `L3` in its first block.  It will lead view 1, before and after
the removal. -/

namespace Between

/-- `sender` asks for view 1, in an epoch. -/
def suspect (sender : String) (epoch : ℕ) : Tenure → Event := fun s =>
  Script.hear (.viewChange { view := 1, epoch := epoch, highQC := some Script.root,
                             sender := sender, sig := (four false).priv sender }) s.host

/-- `L1` hears the blocks from height `i + 1` to height `i + k`. -/
def blocks (i k : ℕ) : List (Tenure → Event) :=
  ((Life.Crossing.chain [9] [1] (i + k)).drop i).map fun f s => f { host := s.host, seen := [] }

/-- The removal is committed between the two view changes. -/
def mixed : List (Tenure → Event) := blocks 0 3 ++ [suspect "L2" 0] ++ blocks 3 1 ++ [suspect "L0" 1]

def uniform : List (Tenure → Event) := blocks 0 4 ++ [suspect "L0" 1, suspect "L2" 1]

/-- `L1`, opened. -/
def start : Tenure := { host := Script.boot Script.leaving (Script.setup "L1" 1), led := none }

abbrev run : Machine Tenure Event := machine Script.leaving (Script.setup "L1" 1)

end Between

theorem certificate_accepted_uniform :
    let s := (Between.run.restrict (Matching Script.leaving)).play Between.start Between.uniform
    s.led = some 1 ∧ s.host.node.epoch = 1 ∧ (s.host.node.vcsOf 1).len = 2 ∧
      s.host.node.proposalViewCertValidLocked Script.leaving 1
        (s.host.node.proposeLocked Script.leaving Move.still [5]).2.viewChanges = true :=
  ⟨by decide +kernel, by decide +kernel, by decide +kernel,
    certificate_accepted (E := Script.leaving) (K := Script.setup "L1" 1)
      (show _ = Except.ok (Script.opened Script.leaving (Script.setup "L1" 1)) from rfl)
      (Machine.steps_of_plays Between.uniform _ (by decide +kernel)) (by decide +kernel)
      (by decide +kernel) (by decide) Move.still [5] fun _ _ => rfl⟩

/-- **The new leader's certificate is refused.**  After the removal one view change is a quorum: the
second one activates `L1`, with view changes of two epochs, and not even `L1` itself would accept
its proposal. -/
theorem certificate_accepted_fails :
    let s := Between.run.play Between.start Between.mixed
    Between.run.Steps Between.start s ∧ s.led = some 1 ∧ s.host.node.view = 1 ∧
      s.host.node.active = true ∧ s.host.node.leader = "L1" ∧
      s.host.node.proposalViewCertValidLocked Script.leaving 1
        (s.host.node.proposeLocked Script.leaving Move.still [5]).2.viewChanges = false :=
  ⟨Machine.steps_of_plays _ _ (by decide +kernel), by decide +kernel, by decide +kernel,
    by decide +kernel, by decide +kernel, by decide +kernel⟩

end Tenure

end Cachey.HotStuff
