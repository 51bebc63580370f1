/-
# Views advance on a quorum

A replica leaves its view on one of three grounds (`Entry`).  One is its own: `StartViewChange`
suspects the view and moves up by ONE.  The other two take a quorum of signed view changes for
exactly the view that is entered, and a quorum has `f+1` correct members: so a replica that did not
suspect is moved only where `f+1` correct ones asked for it.

* §1  The correct members that have signed a view change for a view (`suspecting`), and how many
      they are behind a quorum.
* §2  What is stored was signed (`Backed`): a view change is counted after its signature is
      checked, under its sender, and a later one of the same sender takes its place.
* §3  The cluster with the call that brought each replica into its view (`Watch`).
-/
import Cachey.HotStuff.Leader
import Cachey.HotStuff.Live

namespace Cachey.HotStuff

namespace ClusterState

/-! ## 1. Who asked for a view -/

/-- `i` has signed a view change for `view`. -/
def suspects (s : ClusterState) (view : ℕ) (i : String) : Bool :=
  s.trace.any fun x => x.1 = i && match x.2 with
    | .signed (.viewChange v _ _ _) => v = view
    | _ => false

def suspecting (K : Cluster) (s : ClusterState) (view : ℕ) : List String :=
  K.members.filter fun m => decide (K.Correct m) && s.suspects view m

/-- A key under which a view change may be stored. -/
def Backed (K : Cluster) (s : ClusterState) (view : ℕ) (i : String) : Prop :=
  i ∈ K.members ∧ (i ∉ K.byzantine → s.suspects view i = true)

variable {E : Env} {K : Cluster} {s s' : ClusterState} {view : ℕ} {i : String}

theorem suspects_of_signed {e : ℕ} {qc : Option QC} {who : String}
    (h : (i, Effect.signed (.viewChange view e qc who)) ∈ s.trace) : s.suspects view i = true :=
  List.any_eq_true.mpr ⟨_, h, by simp⟩

theorem suspects_mono (hsub : ∀ x ∈ s.trace, x ∈ s'.trace) (h : s.suspects view i = true) :
    s'.suspects view i = true := by
  obtain ⟨x, hx, hp⟩ := List.any_eq_true.mp h
  exact List.any_eq_true.mpr ⟨x, hsub x hx, hp⟩

theorem Backed.mono (hsub : ∀ x ∈ s.trace, x ∈ s'.trace) (h : Backed K s view i) :
    Backed K s' view i :=
  ⟨h.1, fun hc => suspects_mono hsub (h.2 hc)⟩

theorem suspecting_mono (hsub : ∀ x ∈ s.trace, x ∈ s'.trace) :
    (s.suspecting K view).length ≤ (s'.suspecting K view).length := by
  refine (List.monotone_filter_right K.members fun m hm => ?_).length_le
  rw [Bool.and_eq_true] at hm ⊢
  exact ⟨hm.1, suspects_mono hsub hm.2⟩

theorem suspecting_of_quorum {Q : List String} (hd : Q.Nodup) (hlen : 2 * K.f + 1 ≤ Q.length)
    (hQ : ∀ i ∈ Q, Backed K s view i) : K.f + 1 ≤ (s.suspecting K view).length := by
  have hcard : K.f + (K.f + 1) ≤ Q.toFinset.card := by
    rw [List.toFinset_card_of_nodup hd]
    omega
  refine (K.faultBound.correct_card (fun i hi => ?_) hcard).trans
    ((Finset.card_le_card fun i hi => ?_).trans (List.toFinset_card_le (s.suspecting K view)))
  · exact List.mem_toFinset.mpr (hQ i (List.mem_toFinset.mp hi)).1
  · obtain ⟨hi, hc⟩ := Finset.mem_sdiff.mp hi
    have hc : i ∉ K.byzantine := fun h => hc (List.mem_toFinset.mpr h)
    obtain ⟨hmem, hs⟩ := hQ i (List.mem_toFinset.mp hi)
    refine List.mem_toFinset.mpr (List.mem_filter.mpr ⟨hmem, ?_⟩)
    simp [Cluster.Correct, hmem, hc, hs hc]

theorem Backed.of_verified {S : ValidatorSet} (hS : GoodSet K E S) {vc : ViewChange}
    (hu : ∀ i ∈ K.members, i ∉ K.byzantine →
      E.verify (K.key E i) vc.signable vc.sig = true → (i, Effect.signed vc.signable) ∈ s.trace)
    (hhas : S.has vc.sender = true)
    (hver : verifyInSet E S vc.sender vc.sig vc.signable = true) :
    Backed K s vc.view vc.sender := by
  have hmem := hS.members _ hhas
  exact ⟨hmem, fun hc => suspects_of_signed (hu _ hmem hc (hS.verified hver))⟩

end ClusterState

/-! ## 2. What is stored -/

section Storing

variable {E : Env} {C : Ctx} {n m : Replica} {vc : ViewChange}

theorem tolerates_out (x : Effect) (ids : List BlockID) : Tolerates ids fun m => x ∈ m.out where
  note := by
    intro n m hn hm _
    rw [hm]
    exact hn
  fetch := fun _ _ _ hn => hn
  sync := fun _ _ _ _ _ hn => hn
  answered := fun _ hn => hn
  activate := fun _ hn => hn
  send := fun _ _ hn => List.mem_cons_of_mem _ hn
  signed := fun _ hn => List.mem_cons_of_mem _ hn

/-- **The view change a call stores**: a received one that counts, or its own. -/
theorem gathering_cases {inp : Input} (h : n.gathering E inp = some (m, vc)) :
    (inp = .deliver (.viewChange vc) ∧ n.counts E vc = true) ∨
      (vc.sender = n.id ∧ .signed vc.signable ∈ (n.handle E C inp).out) := by
  obtain ⟨_, _, hcall, hin | ⟨_, hs, hout⟩⟩ := gathering_spec (C := C) h
  · exact Or.inl hin
  refine Or.inr ⟨hs, ?_⟩
  have htol := tolerates_out (.signed vc.signable) ((m.addVC vc).basing E C vc.view)
  rw [hcall]
  refine htol.countVC vc hout hout fun hadd => htol.maybeActivateLocked hadd (fun _ hlt _ _ => ?_)
    (fun _ h => h) (fun _ hm => hm) fun _ hm _ _ _ _ => hm
  unfold Replica.enterViewLocked
  rw [enterViewLockedEpoch_of_lt hlt]
  exact hadd

end Storing

/-! ## 3. The call that brought a replica into its view

The state does not say why a view was entered, so the cluster is watched: for each replica the input
of the call that last changed its view.  The three grounds are then told apart by that input. -/

def Turn.input : Turn → Option Input
  | .step l => some l.input
  | .collect _ => none

/-- A cluster, with the input of the call that last changed each replica's view. -/
structure Watch where
  cluster : ClusterState
  entered : String → Option Input

namespace Watch

/-- No view has been entered yet. -/
def start (s : ClusterState) : Watch := { cluster := s, entered := fun _ => none }

def act (E : Env) (s : Watch) (t : Turn) : Watch where
  cluster := s.cluster.turn E t
  entered := fun r =>
    if ((s.cluster.turn E t).replica r).view = (s.cluster.replica r).view then s.entered r
    else t.input

/-- The watched cluster as a machine. -/
abbrev machine (E : Env) (K : Cluster) : Machine Watch Turn where
  enabled := fun s t => s.cluster.Able E K t
  act := fun s t => s.act E t

/-- **What holds in every watched state.** -/
structure Inv (E : Env) (K : Cluster) (s : Watch) : Prop where
  tame : s.cluster.Tame E K
  stored : ∀ r, K.Correct r → ∀ view k vc,
    ((s.cluster.replica r).vcsOf view).lookup k = some vc → s.cluster.Backed K view k
  gated : ∀ r, K.Correct r → 0 < (s.cluster.replica r).view →
    s.entered r = some .startViewChange ∨
      K.f + 1 ≤ (s.cluster.suspecting K (s.cluster.replica r).view).length

variable {E : Env} {K : Cluster} {s : Watch} {l : Label} {t : Turn}

theorem Inv.init {s₀ : ClusterState} (h₀ : ClusterState.Init E K s₀) : Inv E K (start s₀) where
  tame := ClusterState.Tame.init h₀
  stored := fun r hr view k vc hk => by
    have hvcs := (Audit.Newborn.boot (h₀.2 r hr)).vcs
    have hk : ((s₀.replica r).vcsOf view).lookup k = some vc := hk
    unfold Replica.vcsOf at hk
    rw [hvcs] at hk
    exact absurd hk (by simp [AList.lookup_empty])
  gated := fun r hr hv => absurd (Inaugural.boot (h₀.2 r hr)).view (Nat.ne_of_gt hv)

theorem Inv.counted (h : Inv E K s) (hen : s.cluster.Enabled E K l) {vc : ViewChange}
    (hin : l.input = .deliver (.viewChange vc)) (hc : (s.cluster.ready l).counts E vc = true) :
    s.cluster.Backed K vc.view vc.sender := by
  have hu := hen.2.2.2
  rw [hin] at hu
  unfold Replica.counts at hc
  rw [Bool.and_eq_true] at hc
  obtain ⟨_, hc⟩ := hc
  split at hc
  · cases hc
  next S hS =>
    simp only [Bool.and_eq_true] at hc
    exact .of_verified (h.tame.sets l.actor hen.1 _ S hS).2
      (fun i hi hb => hu (vc.signable, vc.sig) List.mem_cons_self i hi hb) hc.1.1.1 hc.1.2

theorem Inv.turn_stored (h : Inv E K s) (hen : s.cluster.Able E K t) :
    ∀ r, K.Correct r → ∀ view k vc,
      (((s.cluster.turn E t).replica r).vcsOf view).lookup k = some vc →
        (s.cluster.turn E t).Backed K view k := by
  have hsub := ClusterState.turn_trace (E := E) t s.cluster
  refine ClusterState.turn_replica (P := fun _ n => ∀ view k vc,
    (n.vcsOf view).lookup k = some vc → (s.cluster.turn E t).Backed K view k) hen
    (fun r hr view k vc hk => (h.stored r hr view k vc hk).mono hsub) ?_ ?_
  · rintro l rfl view k vc hk
    rcases handle_stored (h.tame.ready hen.1).planted.parked hk with hk | ⟨m, hg, rfl, rfl⟩
    · exact (h.stored l.actor hen.1 view k vc hk).mono hsub
    · rcases gathering_cases (C := l.ctx) hg with ⟨hin, hc⟩ | ⟨hme, hout⟩
      · exact (h.counted hen hin hc).mono hsub
      · rw [hme.trans (h.tame.me l.actor hen.1)]
        exact ⟨hen.1.1, fun _ =>
          ClusterState.suspects_of_signed (ClusterState.mem_trace_of_out hout)⟩
  · rintro r rfl view k vc hk
    refine (h.stored r hen.1 view k vc ?_).mono hsub
    rcases gcLocked_cases (s.cluster.replica r) with heq | ⟨_, _, _, _, _, c⟩
    · rwa [heq] at hk
    · unfold Replica.vcsOf at hk ⊢
      rwa [c.vcs] at hk

/-- **A view entered on the word of others has a quorum behind it.** -/
theorem Inv.entry (h : Inv E K s) (hen : s.cluster.Enabled E K l) {view epoch : ℕ}
    (he : Entry E (s.cluster.ready l) l.input view epoch) (hlt : (s.cluster.ready l).view < view) :
    l.input = .startViewChange ∨ K.f + 1 ≤ (s.cluster.suspecting K view).length := by
  have hsets := h.tame.sets l.actor hen.1
  have hu := hen.2.2.2
  generalize hin : l.input = inp at he hu
  cases he with
  | suspected _ => exact Or.inl rfl
  | counted vc S hc hS hquorum =>
    right
    refine ClusterState.suspecting_of_quorum (Q := ((s.cluster.ready l).addVC vc).vcsOf vc.view |>.keys)
      (AList.keys_nodup _) ?_ fun i hi => ?_
    · rw [← GoMap.len_eq_keys, ← (hsets _ S hS).2.quorum]
      exact hquorum
    · obtain ⟨x, hx⟩ := GoMap.mem_iff_lookup.mp (AList.mem_keys.mpr hi)
      rcases addVC_eq vc (s.cluster.ready l) with heq | heq | heq
      · rw [heq] at hx
        exact h.stored l.actor hen.1 _ i x hx
      · rw [heq] at hx
        exact h.stored l.actor hen.1 _ i x hx
      · rw [heq, vcsOf_insert rfl, if_pos rfl, GoMap.lookup_insert_of] at hx
        split at hx
        next hkey =>
          rw [hkey]
          exact h.counted hen hin hc
        next => exact h.stored l.actor hen.1 _ i x hx
  | proposed p hc =>
    right
    obtain ⟨_, _, _, _, _, _, hcert⟩ := considers_iff.mp hc
    obtain ⟨e, S, hS, cert⟩ := ViewCertificate.of_accepted (hcert.resolve_left (by omega))
    have hgood := (hsets e S hS).2
    refine ClusterState.suspecting_of_quorum cert.distinct ?_ fun i hi => ?_
    · rw [List.length_map, ← hgood.quorum]
      exact cert.quorum
    · obtain ⟨vc, hvc, rfl⟩ := List.mem_map.mp hi
      obtain ⟨hview, _, hhas, hver⟩ := cert.each vc hvc
      rw [← hview]
      refine .of_verified hgood (fun i hi hb => hu (vc.signable, vc.sig) ?_ i hi hb) hhas hver
      exact List.mem_cons_of_mem _ (List.mem_append_right _
        (List.mem_flatMap.mpr ⟨vc, hvc, List.mem_cons_self⟩))

theorem Inv.act (h : Inv E K s) (hen : s.cluster.Able E K t) :
    Inv E K (s.act E t) where
  tame := h.tame.turn hen
  stored := h.turn_stored hen
  gated := by
    have hsub := ClusterState.turn_trace (E := E) t s.cluster
    -- a replica that stays in its view
    have hstay : ∀ r, K.Correct r → ∀ n : Replica, n.view = (s.cluster.replica r).view →
        0 < n.view → (if n.view = (s.cluster.replica r).view then s.entered r else t.input) =
            some .startViewChange ∨
          K.f + 1 ≤ ((s.cluster.turn E t).suspecting K n.view).length := by
      intro r hr n hview hpos
      rw [if_pos hview, hview]
      exact (h.gated r hr (hview ▸ hpos)).imp_right fun hle =>
        hle.trans (ClusterState.suspecting_mono hsub)
    refine ClusterState.turn_replica (P := fun r n => 0 < n.view →
      (if n.view = (s.cluster.replica r).view then s.entered r else t.input) =
          some .startViewChange ∨
        K.f + 1 ≤ ((s.cluster.turn E t).suspecting K n.view).length) hen
      (fun r hr => hstay r hr _ rfl) ?_ ?_
    · rintro l rfl
      rcases handle_seat (E := E) (C := l.ctx) l.input (s.cluster.ready l) with
        hseat | ⟨view, epoch, he, hlt, hseat⟩
      · exact hstay l.actor hen.1 _ (congrArg Prod.fst hseat)
      · intro _
        have hview : ((s.cluster.ready l).handle E l.ctx l.input).view = view :=
          congrArg Prod.fst hseat
        have hne : view ≠ (s.cluster.replica l.actor).view := Nat.ne_of_gt hlt
        rw [hview, if_neg hne]
        exact (h.entry hen he hlt).imp (fun hin => congrArg some hin) fun hle =>
          hle.trans (ClusterState.suspecting_mono hsub)
    · rintro r rfl
      exact hstay r hen.1 _ (congrArg Prod.fst
        ((inert_seat fun x => x = (s.cluster.replica r).seat).gcLocked rfl))

theorem startViewChange_view {C : Ctx} (n : Replica) :
    (n.handle E C .startViewChange).view ≤ n.view + 1 := by
  rcases handle_seat (E := E) (C := C) .startViewChange n with hseat | ⟨view, epoch, he, _, hseat⟩
  · have : (n.handle E C .startViewChange).view = n.view := congrArg Prod.fst hseat
    omega
  · have hview : (n.handle E C .startViewChange).view = view := congrArg Prod.fst hseat
    cases he with
    | suspected _ =>
      rw [hview]
      exact Nat.mod_le _ _

/-- **View progress is quorum gated.**  A replica in a later view that it did not enter by its own
`StartViewChange` has `f+1` correct members behind it that signed a view change for exactly this
view; and its own `StartViewChange` takes it one view up at most. -/
theorem view_quorum_gated {s₀ : ClusterState} (h₀ : ClusterState.Init E K s₀)
    (hrun : (machine E K).Steps (start s₀) s) {r : String} (hr : K.Correct r) :
    (0 < (s.cluster.replica r).view → s.entered r ≠ some .startViewChange →
      K.f + 1 ≤ (s.cluster.suspecting K (s.cluster.replica r).view).length) ∧
    ∀ l : Label, l.actor = r → l.input = .startViewChange →
      ((s.cluster.act E l).replica r).view ≤ (s.cluster.replica r).view + 1 := by
  have h : Inv E K s := hrun.invariant (fun _ _ h hen => h.act hen) (Inv.init h₀)
  refine ⟨fun hv hown => (h.gated r hr hv).resolve_left hown, ?_⟩
  rintro l rfl hin
  change (if l.actor = l.actor then _ else _ : Replica).view ≤ _
  rw [if_pos rfl, hin]
  exact startViewChange_view (s.cluster.ready l)

/-- The three others suspect the view, and `L1`, the leader of the next one, counts. -/
def takeover : List (Watch → Turn) :=
  [Move.suspect "L0", Move.suspect "L2", Move.suspect "L3", Move.relay "L0" "L1",
    Move.relay "L2" "L1", Move.relay "L3" "L1"].map fun m s => .step (m s.cluster)

theorem view_quorum_gated_takeover :
    let s := (machine plainEnv (four false)).play (start ((four false).start plainEnv)) takeover
    (s.cluster.replica "L1").view = 1 ∧ s.entered "L1" ≠ some .startViewChange ∧
      2 ≤ (s.cluster.suspecting (four false) (s.cluster.replica "L1").view).length := by
  intro s
  have hview : 0 < (s.cluster.replica "L1").view := by decide +kernel
  have hown : s.entered "L1" ≠ some .startViewChange := by decide +kernel
  exact ⟨by decide +kernel, hown,
    (view_quorum_gated (Cluster.init_start plainEnv (four false))
      (Machine.steps_of_plays takeover _ (by decide +kernel)) (by decide)).1 hview hown⟩

end Watch

end Cachey.HotStuff
