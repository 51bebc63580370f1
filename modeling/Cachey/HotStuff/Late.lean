/-
# View changes that arrive after the activation

A leader is activated by a quorum of view changes, and with `3f+1` members there are up to `f` more
to come.  `maybeActivateLocked` does not ask whether the replica is active already: each of them
activates it AGAIN.  The head falls back to the block of `qcHigh`, so a block in flight is dropped
and `Propose` no longer answers `ErrBusy`, and the next block skips a height once more.

* §1  What one more view change should leave alone (`Same`), and the steps of an activation.
* §2  The view changes that do (`Spares`): those that do not count or do not complete a quorum, those
      that find the leader without a proposal since its activation, and those that find it waiting
      for the block of a higher certificate.
* §3  A leader with a block in flight.
-/
import Cachey.HotStuff.Live
import Cachey.HotStuff.Rotation

namespace Cachey.HotStuff

namespace Replica

variable {E : Env} {C : Ctx} {n n' : Replica} {vc : ViewChange} {qc : QC} {l : List ViewChange}

/-! ## 1. Counting one more -/

/-- The view changes for the view of `vc`, with `vc` among them. -/
def tally (vc : ViewChange) (n : Replica) : GoMap String ViewChange :=
  (n.vcsOf vc.view).insert vc.sender vc

def reported (E : Env) (vc : ViewChange) (n : Replica) : List QC :=
  ((n.tally vc).values.filterMap (·.highQC)).filter fun qc => n.qcValid E qc

/-- They are a quorum of the current set. -/
def Quorate (vc : ViewChange) (n : Replica) : Prop :=
  ∀ set, n.sets.lookup n.epoch = some set → set.quorum ≤ (n.tally vc).len

/-- The leader with `vc` stored. -/
def counting (vc : ViewChange) (n : Replica) : Replica :=
  { n with vcs := n.vcs.insert vc.view (n.tally vc) }

@[simp] theorem counting_id : (n.counting vc).id = n.id := rfl
@[simp] theorem counting_leader : (n.counting vc).leader = n.leader := rfl
@[simp] theorem counting_view : (n.counting vc).view = n.view := rfl
@[simp] theorem counting_qcHigh : (n.counting vc).qcHigh = n.qcHigh := rfl
@[simp] theorem counting_blocks : (n.counting vc).blocks = n.blocks := rfl

theorem vcsOf_counting : (n.counting vc).vcsOf vc.view = n.tally vc := by
  unfold vcsOf counting
  rw [AList.lookup_insert]
  rfl

/-- Base and head are those of an activation: nothing has been proposed since.  Another activation
on the same certificate then sets what is set already. -/
def Rested (n : Replica) : Prop :=
  n.freshBase = true ∧ (n.qcHigh.nodeID ≠ noID → n.head = n.qcHigh.nodeID)

/-- What a late view change should leave alone; `Propose` answers `ErrBusy` as before. -/
structure Same (n n' : Replica) : Prop where
  head : n'.head = n.head
  freshBase : n'.freshBase = n.freshBase
  active : n'.active = n.active
  qcHigh : n'.qcHigh = n.qcHigh
  blocks : n'.blocks = n.blocks
  running : n'.panicked = n.panicked
  busy : ∀ (E : Env) (C : Ctx) (cmd : Bytes), (n.propose E C cmd).2 = .error .busy →
    (n'.propose E C cmd).2 = .error .busy

theorem propose_busy_iff {cmd : Bytes} : (n.propose E C cmd).2 = .error .busy ↔
    n.id = n.leader ∧ n.active = true ∧ n.qcHigh.nodeID ≠ n.head := by
  unfold propose
  by_cases hlead : n.id ≠ n.leader ∨ ¬ n.active = true
  · rw [if_pos hlead]
    refine iff_of_false (by simp) fun h => ?_
    rcases hlead with hlead | hlead
    · exact hlead h.1
    · exact hlead h.2.1
  · rw [if_neg hlead]
    obtain ⟨hl, ha⟩ := not_or.mp hlead
    by_cases hbusy : n.qcHigh.nodeID ≠ n.head
    · rw [if_pos hbusy]
      exact iff_of_true rfl ⟨not_not.mp hl, not_not.mp ha, hbusy⟩
    · rw [if_neg hbusy]
      exact iff_of_false (by simp) fun h => hbusy h.2.2

theorem Same.of_eq (hid : n'.id = n.id) (hleader : n'.leader = n.leader) (hhead : n'.head = n.head)
    (hfresh : n'.freshBase = n.freshBase) (hactive : n'.active = n.active)
    (hhigh : n'.qcHigh = n.qcHigh) (hblocks : n'.blocks = n.blocks)
    (hrun : n'.panicked = n.panicked) : Same n n' where
  head := hhead
  freshBase := hfresh
  active := hactive
  qcHigh := hhigh
  blocks := hblocks
  running := hrun
  busy := by
    intro E C cmd
    rw [propose_busy_iff, propose_busy_iff, hid, hleader, hactive, hhigh, hhead]
    exact fun h => h

theorem same_sendFetch_iff (f : Option Fetch) : Same n (n'.sendFetch f) ↔ Same n n' := by
  obtain ⟨out, heq⟩ : ∃ out, n'.sendFetch f = { n' with out := out } := by
    unfold sendFetch
    split
    · exact ⟨_, rfl⟩
    split
    · exact ⟨_, rfl⟩
    · exact ⟨_, rfl⟩
  rw [heq]
  -- the journal is no part of what `Propose` looks at
  have hbusy : ∀ (E : Env) (C : Ctx) (cmd : Bytes), (propose E C cmd { n' with out := out }).2 =
      .error .busy ↔ (n'.propose E C cmd).2 = .error .busy := by
    intro E C cmd
    rw [propose_busy_iff, propose_busy_iff]
  constructor
  · rintro ⟨h₁, h₂, h₃, h₄, h₅, h₆, h₇⟩
    exact ⟨h₁, h₂, h₃, h₄, h₅, h₆, fun E C cmd h => (hbusy E C cmd).mp (h₇ E C cmd h)⟩
  · rintro ⟨h₁, h₂, h₃, h₄, h₅, h₆, h₇⟩
    exact ⟨h₁, h₂, h₃, h₄, h₅, h₆, fun E C cmd h => (hbusy E C cmd).mpr (h₇ E C cmd h)⟩

/-- Another activation on the same certificate changes nothing exactly if nothing has been proposed
since the last one. -/
theorem same_activate_iff (vc : ViewChange) (hl : n.id = n.leader) (ha : n.active = true) :
    Same n ((n.counting vc).activateWithBaseLocked n.qcHigh) ↔ n.Rested := by
  constructor
  · intro h
    refine ⟨h.freshBase.symm, fun hne => ?_⟩
    have hhead := h.head
    unfold activateWithBaseLocked at hhead
    rw [if_pos hne] at hhead
    exact hhead.symm
  · rintro ⟨hfresh, hhead⟩
    refine Same.of_eq rfl rfl ?_ hfresh.symm ?_ rfl rfl rfl
    · unfold activateWithBaseLocked
      split
      next hne => exact (hhead hne).symm
      · rfl
    · rw [ha]
      exact decide_eq_true hl

theorem addVC_of_counts (h : n.counts E vc = true) :
    n.addVC vc = n.counting vc := by
  unfold counts at h
  cases hset : n.sets.lookup n.epoch with
  | none => simp [hset] at h
  | some set =>
    simp only [hset, Bool.and_eq_true, decide_eq_true_eq] at h
    obtain ⟨-, ⟨⟨hhas, hl⟩, -⟩, -⟩ := h
    unfold addVC
    simp only [hset, hhas, hl, not_true_eq_false, if_false, ne_eq]
    rfl

/-- One report in the choice of the highest certificate. -/
def chooseHigher (E : Env) (n : Replica) (high : QC) (vc : ViewChange) : QC :=
  match vc.highQC with
  | none => high
  | some qc => if n.qcValid E qc ∧ qc.height > high.height then qc else high

theorem highestReported_eq (l : List ViewChange) :
    n.highestReported E l = l.foldl (n.chooseHigher E) n.qcHigh := rfl

theorem le_chooseHigher (high : QC) : high.height ≤ (n.chooseHigher E high vc).height := by
  unfold chooseHigher
  split
  · exact le_refl _
  · split
    · omega
    · exact le_refl _

theorem le_chooseHigher_of_valid (hq : vc.highQC = some qc) (hvalid : n.qcValid E qc = true)
    (high : QC) : qc.height ≤ (n.chooseHigher E high vc).height := by
  unfold chooseHigher
  simp only [hq, hvalid, true_and]
  split
  · exact le_refl _
  · omega

theorem le_foldl_chooseHigher : ∀ (l : List ViewChange) (high : QC),
    high.height ≤ (l.foldl (n.chooseHigher E) high).height
  | [], _ => le_refl _
  | _ :: l, _ => (le_chooseHigher _).trans (le_foldl_chooseHigher l _)

theorem le_highestReported (hvc : vc ∈ l) (hq : vc.highQC = some qc)
    (hvalid : n.qcValid E qc = true) : qc.height ≤ (n.highestReported E l).height := by
  rw [highestReported_eq]
  generalize n.qcHigh = high
  induction l generalizing high with
  | nil => exact absurd hvc (by simp)
  | cons r l ih =>
    rw [List.foldl_cons]
    rcases List.mem_cons.mp hvc with rfl | hvc
    · exact (le_chooseHigher_of_valid hq hvalid high).trans (le_foldl_chooseHigher l _)
    · exact ih hvc _

theorem foldl_chooseHigher_of_le : ∀ (l : List ViewChange) (high : QC),
    (∀ r ∈ l, ∀ qc, r.highQC = some qc → n.qcValid E qc = true → qc.height ≤ high.height) →
    l.foldl (n.chooseHigher E) high = high
  | [], _, _ => rfl
  | r :: l, high, h => by
    have hkeep : n.chooseHigher E high r = high := by
      unfold chooseHigher
      split
      · rfl
      next qc hq =>
        refine if_neg fun hc => ?_
        have hle := h r List.mem_cons_self qc hq hc.1
        omega
    rw [List.foldl_cons, hkeep]
    exact foldl_chooseHigher_of_le l high fun r hr => h r (List.mem_cons_of_mem _ hr)

theorem highestReported_first (hq : vc.highQC = some qc) (hvalid : n.qcValid E qc = true)
    (habove : n.qcHigh.height < qc.height)
    (htop : ∀ r ∈ l, ∀ q, r.highQC = some q → n.qcValid E q = true → q.height ≤ qc.height) :
    n.highestReported E (vc :: l) = qc := by
  have hfirst : n.chooseHigher E n.qcHigh vc = qc := by
    unfold chooseHigher
    simp only [hq]
    exact if_pos ⟨hvalid, habove⟩
  rw [highestReported_eq, List.foldl_cons, hfirst]
  exact foldl_chooseHigher_of_le l qc htop

/-- The peer a missing base is asked from has reported it. -/
theorem vcReporterLocked_mem {high : QC} (hr : vc ∈ (n.vcsOf n.view).values)
    (hq : vc.highQC = some high) :
    ∃ r ∈ (n.vcsOf n.view).values, ∃ q, r.highQC = some q ∧ q.nodeID = high.nodeID ∧
      q.height = high.height ∧ n.vcReporterLocked C high = r.sender := by
  unfold vcReporterLocked
  split
  next hnone =>
    have hno := List.find?_eq_none.mp hnone vc ((C.rescan.mem_order).mpr hr)
    simp [hq] at hno
  next r hfound =>
    have hin := (C.rescan.mem_order).mp (List.mem_of_find?_eq_some hfound)
    have hmatch := List.find?_some hfound
    split at hmatch
    · cases hmatch
    next q hq' =>
      obtain ⟨hid, hheight⟩ : q.nodeID = high.nodeID ∧ q.height = high.height := by
        simpa using hmatch
      exact ⟨r, hin, q, hq', hid, hheight, rfl⟩

/-! ## 2. What it changes

With a quorum stored, all depends on the certificate the activation is based on.  The reports are
met in the order of a Go map; of several that are highest any may come first, and any of its
reporters may be asked for its block.  The condition has to do for every order. -/

/-- The certificate an activation with `vc` is based on, the reports being met in the order of `C`. -/
def basis (E : Env) (C : Ctx) (vc : ViewChange) (n : Replica) : QC :=
  (n.counting vc).highestReported E (C.scan.order (n.tally vc).values)

/-- The leader keeps what it has, although a quorum is there: no report is above its own
certificate and it has not proposed since its activation; or a report is, and the block of a highest
one is missing and can be asked for. -/
def Persists (E : Env) (vc : ViewChange) (n : Replica) : Prop :=
  ((∀ qc ∈ n.reported E vc, qc.height ≤ n.qcHigh.height) → n.Rested) ∧
    ∀ qc ∈ n.reported E vc, n.qcHigh.height < qc.height →
      (∀ q ∈ n.reported E vc, q.height ≤ qc.height) →
        qc.nodeID ∉ n.blocks ∧ ∀ r ∈ (n.tally vc).values, ∀ q, r.highQC = some q →
          q.nodeID = qc.nodeID → q.height = qc.height → r.sender = "" → n.Rested

/-- What a late view change must meet to be harmless. -/
def Spares (E : Env) (vc : ViewChange) (n : Replica) : Prop :=
  if n.counts E vc then n.Quorate vc → n.Persists E vc
  else ∀ set view, n.consults E (.viewChange vc) = some (set, view) →
    leaderOfSet n.leader0 (some set) view ≠ none

/-- Adopting a base keeps everything exactly if the base is the leader's own certificate, and
nothing has been proposed since; or if it is higher and its block has to be asked for. -/
theorem same_adoptBase_iff (hl : n.id = n.leader) (ha : n.active = true) (high : QC) :
    Same n ((n.counting vc).adoptBaseLocked E C high).1 ↔
      if high.height ≤ n.qcHigh.height then n.Rested
      else high.nodeID ∉ n.blocks ∧ ((n.counting vc).vcReporterLocked C high = "" → n.Rested) := by
  have hactivate := same_activate_iff vc hl ha
  unfold adoptBaseLocked
  rw [counting_id, counting_leader, counting_qcHigh, counting_blocks, if_neg (not_not.mpr hl)]
  by_cases hlow : high.height ≤ n.qcHigh.height
  · rw [if_pos hlow, if_neg (Nat.not_lt.mpr hlow)]
    exact hactivate
  rw [if_neg hlow, if_pos (Nat.lt_of_not_le hlow)]
  by_cases hin : high.nodeID ∈ n.blocks
  · rw [if_neg (not_not.mpr hin), adoptQC_eq]
    refine iff_of_false (fun h => ?_) fun h => h.1 hin
    have hhigh : high = n.qcHigh := h.qcHigh
    exact hlow (by rw [hhigh])
  rw [if_pos hin]
  dsimp only
  by_cases hrep : (n.counting vc).vcReporterLocked C high = ""
  · rw [if_pos hrep, hactivate]
    exact ⟨fun h => ⟨hin, fun _ => h⟩, fun h => h.2 hrep⟩
  · rw [if_neg hrep]
    refine iff_of_true ?_ ⟨hin, fun h => absurd h hrep⟩
    split
    · exact Same.of_eq rfl rfl rfl rfl rfl rfl rfl rfl
    · exact Same.of_eq rfl rfl rfl rfl rfl rfl rfl rfl

theorem same_counted_iff (hcounts : n.counts E vc = true) (hview : vc.view = n.view) :
    Same n (n.handleViewChange E C vc) ↔
      (n.Quorate vc → Same n ((n.counting vc).adoptBaseLocked E C (n.basis E C vc)).1) := by
  rw [handleViewChange_eq hcounts, addVC_of_counts hcounts, same_sendFetch_iff]
  obtain ⟨set, hset, hlead⟩ : ∃ set, n.sets.lookup n.epoch = some set ∧
      n.leaderOfEpoch n.epoch vc.view = some n.id := by
    unfold counts at hcounts
    cases hset : n.sets.lookup n.epoch with
    | none => simp [hset] at hcounts
    | some set =>
      simp only [hset, Bool.and_eq_true, decide_eq_true_eq] at hcounts
      exact ⟨set, rfl, hcounts.2.1.1.2⟩
  have hquorate : n.Quorate vc ↔ set.quorum ≤ (n.tally vc).len := by
    unfold Quorate
    rw [hset]
    exact ⟨fun h => h set rfl, fun h s hs => by cases hs; exact h⟩
  have hset' : (n.counting vc).sets.lookup (n.counting vc).epoch = some set := hset
  have hlead' : (n.counting vc).leaderOfEpoch (n.counting vc).epoch vc.view =
      some (n.counting vc).id := hlead
  unfold maybeActivateLocked
  simp only [hset', hlead', vcsOf_counting, ne_eq, not_true_eq_false, if_false]
  rw [hquorate]
  by_cases hlen : (n.tally vc).len < set.quorum
  · rw [if_pos hlen]
    refine iff_of_true ?_ fun h => absurd h (Nat.not_le.mpr hlen)
    exact Same.of_eq rfl rfl rfl rfl rfl rfl rfl rfl
  · have hnogt : ¬ vc.view > (n.counting vc).view := by
      rw [hview, counting_view]
      exact lt_irrefl n.view
    rw [if_neg hlen, if_neg hnogt, counting_view, if_neg (not_not.mpr hview)]
    exact ⟨fun h _ => h, fun h => h (Nat.le_of_not_lt hlen)⟩

theorem mem_reported : qc ∈ n.reported E vc ↔
    n.qcValid E qc = true ∧ ∃ r ∈ (n.tally vc).values, r.highQC = some qc := by
  unfold reported
  rw [List.mem_filter, List.mem_filterMap]
  exact and_comm

theorem mem_tally (it : Iteration ViewChange) {r : ViewChange} :
    r ∈ it.order (n.tally vc).values ↔ r ∈ (n.tally vc).values :=
  it.mem_order

theorem le_basis (hqc : qc ∈ n.reported E vc) : qc.height ≤ (n.basis E C vc).height := by
  obtain ⟨hvalid, r, hr, hrq⟩ := mem_reported.mp hqc
  exact le_highestReported (n := n.counting vc) ((mem_tally C.scan).mpr hr) hrq hvalid

/-- A view change that does not count does nothing, unless it consults a set without a leader: then
the process is down. -/
theorem same_uncounted_iff (hrun : n.panicked = false) (hcounts : ¬ n.counts E vc = true) :
    (∀ C, Same n (n.handleViewChange E C vc)) ↔
      ∀ set view, n.consults E (.viewChange vc) = some (set, view) →
        leaderOfSet n.leader0 (some set) view ≠ none := by
  constructor
  · intro h set view hcon hnone
    have hsame := h Move.still
    have hcrash : n.handleViewChange E Move.still vc = n.crash := handle_of_unseated hcon hnone
    rw [hcrash] at hsame
    have hdead : true = n.panicked := hsame.running
    rw [hrun] at hdead
    cases hdead
  · intro h C
    rcases handleViewChange_ignored (C := C) (by simpa using hcounts) with
      heq | ⟨-, hepoch, set, hset, hhas, hnone⟩
    · rw [heq]
      exact Same.of_eq rfl rfl rfl rfl rfl rfl rfl rfl
    · unfold leaderOfEpoch at hnone
      rw [hset] at hnone
      exact absurd hnone (h set vc.view (consults_viewChange.mpr ⟨hepoch, hset, hhas, rfl⟩))

theorem basis_of_le (h : ∀ qc ∈ n.reported E vc, qc.height ≤ n.qcHigh.height) :
    n.basis E C vc = n.qcHigh := by
  refine foldl_chooseHigher_of_le _ n.qcHigh fun r hr q hrq hvalid => ?_
  exact h q (mem_reported.mpr ⟨hvalid, r, (mem_tally _).mp hr, hrq⟩)

/-- A highest report that is above can be met first: some order makes it the basis, whatever the order
of the second look at the reports. -/
theorem exists_basis_eq (hqc : qc ∈ n.reported E vc) (habove : n.qcHigh.height < qc.height)
    (htop : ∀ q ∈ n.reported E vc, q.height ≤ qc.height) :
    ∃ scan, ∀ rescan, n.basis E ⟨0, scan, rescan⟩ vc = qc := by
  obtain ⟨hvalid, r, hr, hrq⟩ := mem_reported.mp hqc
  refine ⟨Iteration.startingAt r, fun rescan => ?_⟩
  have horder : (Iteration.startingAt r).order (n.tally vc).values =
      r :: (n.tally vc).values.erase r := if_pos hr
  change (n.counting vc).highestReported E ((Iteration.startingAt r).order (n.tally vc).values) = qc
  rw [horder]
  refine highestReported_first hrq hvalid habove fun r' hr' q hq' hval => ?_
  exact htop q (mem_reported.mpr ⟨hval, r', List.mem_of_mem_erase hr', hq'⟩)

/-- Any reporter of the basis can be the one that is asked for it. -/
theorem vcReporterLocked_startingAt {r : ViewChange} {q : QC} (hview : vc.view = n.view)
    (hr : r ∈ (n.tally vc).values) (hq : r.highQC = some q) (hid : q.nodeID = qc.nodeID)
    (hheight : q.height = qc.height) (scan : Iteration ViewChange) :
    (n.counting vc).vcReporterLocked ⟨0, scan, Iteration.startingAt r⟩ qc = r.sender := by
  have horder : (Iteration.startingAt r).order (n.tally vc).values =
      r :: (n.tally vc).values.erase r := if_pos hr
  unfold vcReporterLocked
  rw [counting_view, ← hview, vcsOf_counting, horder, List.find?_cons_of_pos]
  simp [hq, hid, hheight]

theorem persists_of_same (hview : vc.view = n.view)
    (h : ∀ C, if (n.basis E C vc).height ≤ n.qcHigh.height then n.Rested
      else (n.basis E C vc).nodeID ∉ n.blocks ∧
        ((n.counting vc).vcReporterLocked C (n.basis E C vc) = "" → n.Rested)) :
    n.Persists E vc := by
  refine ⟨fun hnone => ?_, fun qc hqc habove htop => ?_⟩
  · have hrest := h Move.still
    rw [basis_of_le hnone, if_pos (le_refl _)] at hrest
    exact hrest
  · obtain ⟨scan, hpick⟩ := exists_basis_eq hqc habove htop
    have hhigh : ∀ rescan, qc.nodeID ∉ n.blocks ∧
        ((n.counting vc).vcReporterLocked ⟨0, scan, rescan⟩ qc = "" → n.Rested) := by
      intro rescan
      have hres := h ⟨0, scan, rescan⟩
      rw [hpick, if_neg (Nat.not_le.mpr habove)] at hres
      exact hres
    refine ⟨(hhigh (Iteration.asStored _)).1, fun r hr q hq hid hheight hname => ?_⟩
    refine (hhigh (Iteration.startingAt r)).2 ?_
    rw [vcReporterLocked_startingAt hview hr hq hid hheight]
    exact hname

theorem Persists.same (h : n.Persists E vc) (hview : vc.view = n.view) :
    if (n.basis E C vc).height ≤ n.qcHigh.height then n.Rested
      else (n.basis E C vc).nodeID ∉ n.blocks ∧
        ((n.counting vc).vcReporterLocked C (n.basis E C vc) = "" → n.Rested) := by
  obtain ⟨hown, hother⟩ := h
  split
  next hlow => exact hown fun qc hqc => (le_basis hqc).trans hlow
  next habove =>
    rcases highestReported_cases (E := E) (C.scan.order (n.tally vc).values) (n.counting vc) with
      heq | ⟨r, hr, hrq, hvalid⟩
    · exact absurd (le_of_eq (congrArg QC.height heq)) habove
    · have hr := (mem_tally _).mp hr
      obtain ⟨hmissing, hnamed⟩ := hother (n.basis E C vc) (mem_reported.mpr ⟨hvalid, r, hr, hrq⟩)
        (Nat.lt_of_not_le habove) fun _ => le_basis
      refine ⟨hmissing, fun hname => ?_⟩
      have hstored : r ∈ ((n.counting vc).vcsOf (n.counting vc).view).values := by
        rw [counting_view, ← hview, vcsOf_counting]
        exact hr
      obtain ⟨r', hr', q, hq', hid, hheight, hsender⟩ := vcReporterLocked_mem (C := C) hstored hrq
      rw [counting_view, ← hview, vcsOf_counting] at hr'
      exact hnamed r' hr' q hq' hid hheight (hsender.symm.trans hname)

/-- **Late view changes.**  One more view change leaves the active leader of its view as it is,
whatever the order of the reports, exactly when it spares it.  The order matters because the code
ranges over Go maps twice: once for the highest report, of which there may be several, and once for
the peer to ask for its block. -/
theorem late_viewChange_iff (hl : n.id = n.leader) (ha : n.active = true)
    (hrun : n.panicked = false) (hview : vc.view = n.view) :
    (∀ C, Same n (n.handleViewChange E C vc)) ↔ n.Spares E vc := by
  unfold Spares
  by_cases hcounts : n.counts E vc = true
  · rw [if_pos hcounts]
    have hsame : ∀ C, Same n (n.handleViewChange E C vc) ↔ (n.Quorate vc →
        if (n.basis E C vc).height ≤ n.qcHigh.height then n.Rested
        else (n.basis E C vc).nodeID ∉ n.blocks ∧
          ((n.counting vc).vcReporterLocked C (n.basis E C vc) = "" → n.Rested)) := by
      intro C
      rw [same_counted_iff hcounts hview, same_adoptBase_iff hl ha]
    constructor
    · intro h hq
      exact persists_of_same hview fun C => (hsame C).mp (h C) hq
    · intro h C
      exact (hsame C).mpr fun hq => (h hq).same hview
  · rw [if_neg hcounts]
    exact same_uncounted_iff hrun hcounts

end Replica

/-! ## 3. A block in flight

`L1` takes over view 1 with its own view change and those of `L2` and `L3`.  In the second script
it proposes a block.  Then the view change of `L0` arrives. -/

namespace Straggler

/-- `L1` takes over, proposes or not, and `L0` asks for view 1 as well. -/
def script (proposed : Bool) : List (ClusterState → Turn) :=
  ([Move.suspect "L1", Move.suspect "L2", Move.suspect "L3", Move.relay "L2" "L1",
      Move.relay "L3" "L1"] ++ (if proposed then [Move.propose "L1" [9]] else []) ++
    [Move.suspect "L0"]).map fun m s => .step (m s)

/-- The cluster before the view change of `L0` arrives. -/
def before (proposed : Bool) : ClusterState :=
  (ClusterState.live plainEnv (four false)).play ((four false).start plainEnv) (script proposed)

def leader (proposed : Bool) : Replica := (before proposed).replica "L1"

/-- The view change of `L0`: it reports the certificate of genesis. -/
def late : ViewChange where
  view := 1
  epoch := 0
  highQC := some (genesisBlock (four false).members).2
  sender := "L0"
  sig := (four false).priv "L0"

end Straggler

theorem late_viewChange_rested :
    Replica.Same (Straggler.leader false)
      ((Straggler.leader false).handleViewChange plainEnv Move.still Straggler.late) := by
  refine (Replica.late_viewChange_iff (by decide +kernel) (by decide +kernel) (by decide +kernel)
    (by decide +kernel)).mpr ?_ Move.still
  have hcounts : (Straggler.leader false).counts plainEnv Straggler.late = true := by
    decide +kernel
  have hlow : ∀ qc ∈ (Straggler.leader false).reported plainEnv Straggler.late,
      qc.height ≤ (Straggler.leader false).qcHigh.height := by
    decide +kernel
  rw [Replica.Spares, if_pos hcounts]
  intro _
  exact ⟨fun _ => ⟨by decide +kernel, by decide +kernel⟩,
    fun qc hqc habove => absurd habove (Nat.not_lt.mpr (hlow qc hqc))⟩

/-- **A late view change that is not harmless**: `L1` has a block in flight and is busy; the view
change of `L0`, which reports nothing new, takes the head back to genesis, and `L1` may propose
again. -/
theorem late_viewChange_fails :
    ClusterState.Init plainEnv (four false) ((four false).start plainEnv) ∧
      (ClusterState.live plainEnv (four false)).Steps ((four false).start plainEnv)
        (Straggler.before true) ∧
      (Straggler.before true).lastSent "L0" "L1" = some (.viewChange Straggler.late) ∧
      (Straggler.leader true).id = (Straggler.leader true).leader ∧
      (Straggler.leader true).active = true ∧ (Straggler.leader true).view = 1 ∧
      Straggler.late.highQC = some (Straggler.leader true).qcHigh ∧
      ((Straggler.leader true).propose plainEnv Move.still [8]).2 = .error .busy ∧
      (Straggler.leader true).head ≠ genesisID ∧
      ((Straggler.leader true).handleViewChange plainEnv Move.still Straggler.late).head =
        genesisID ∧
      (((Straggler.leader true).handleViewChange plainEnv Move.still
        Straggler.late).propose plainEnv Move.still [8]).2.isOk = true :=
  ⟨Cluster.init_start plainEnv (four false), Machine.steps_of_plays _ _ (by decide +kernel),
    by decide +kernel, by decide +kernel, by decide +kernel, by decide +kernel,
    by decide +kernel, Replica.propose_busy_iff.mpr (by decide +kernel), by decide +kernel,
    by decide +kernel, by decide +kernel⟩

end Cachey.HotStuff
