/-
# The leader schedule over all views

`leaderOfSet` takes the validators in turn, from the view-0 leader on.  The index is computed as
`(idx + int(view)) % N`, and a view is a `uint64` that any peer can put into a message: from view
2^63 on `int(view)` is negative, and so is the remainder of Go, unless it is 0.  A negative index is
a panic.

* §1  What the index is, below 2^63, between 2^63 and 2^64, and where the sum wraps around.
* §2  The views that have a leader (`Seats`), and the windows of `N` views that visit every
      validator once (`Rotates`).
* §3  `HandleViewChange` and `HandleProposal` ask for the leader of a view BEFORE they check the
      signature of the message that names it (`consults`).  A message nobody has signed is harmless
      exactly when its view has a leader.
-/
import Cachey.HotStuff.Validators
import Cachey.HotStuff.Views
import Mathlib.Data.List.Rotate

namespace Cachey.HotStuff

/-! ## 1. The index -/

variable {t : ℕ}

theorem int64_lower (h : t < 2 ^ 63) : int64 t = t := by
  unfold int64
  rw [Nat.mod_eq_of_lt (by omega), if_pos h]

theorem int64_upper (h : 2 ^ 63 ≤ t) (h' : t < 2 ^ 64) : int64 t = -((2 ^ 64 - t : ℕ) : ℤ) := by
  unfold int64
  rw [Nat.mod_eq_of_lt h', if_neg (by omega)]
  omega

theorem int64_around (h : 2 ^ 64 ≤ t) (h' : t < 2 ^ 64 + 2 ^ 63) : int64 t = (t - 2 ^ 64 : ℕ) := by
  unfold int64
  rw [Nat.mod_eq_sub_mod h, Nat.mod_eq_of_lt (by omega), if_pos (by omega)]

/-- `Validators[k]` for the remainder `k` of an `int` by the number of validators. -/
def seat (l : List String) (i : ℤ) : Option String :=
  if i.tmod l.length < 0 then none else l[(i.tmod l.length).toNat]?

theorem seat_natCast (l : List String) (t : ℕ) : seat l t = l[t % l.length]? := by
  unfold seat
  rw [← Int.ofNat_tmod, if_neg (by omega), Int.toNat_natCast]

theorem seat_neg (l : List String) (t : ℕ) :
    seat l (-(t : ℤ)) = if l.length ∣ t then l[0]? else none := by
  unfold seat
  rw [Int.neg_tmod, ← Int.ofNat_tmod]
  by_cases hdvd : l.length ∣ t
  · rw [Nat.mod_eq_zero_of_dvd hdvd, if_pos hdvd]
    rfl
  · have hpos : 0 < t % l.length := Nat.pos_of_ne_zero fun h => hdvd (Nat.dvd_of_mod_eq_zero h)
    rw [if_neg hdvd, if_pos (by omega)]

namespace ValidatorSet

variable {s : ValidatorSet} {leader0 : String} {view v : ℕ}

/-- Where the schedule starts: the place of the view-0 leader, or the first one if it is not a
member. -/
def origin (s : ValidatorSet) (leader0 : String) : ℕ :=
  if s.validators[searchSorted s.validators leader0]? = some leader0
  then searchSorted s.validators leader0 else 0

theorem origin_lt (leader0 : String) (hne : s.validators ≠ []) : s.origin leader0 < s.validators.length := by
  unfold origin
  split
  next hfound => exact (List.getElem?_eq_some_iff.mp hfound).1
  · exact List.length_pos_of_ne_nil hne

theorem leaderOfSet_eq_seat (hne : s.validators ≠ []) :
    leaderOfSet leader0 (some s) view =
      seat s.validators (int64 (s.origin leader0 + view)) := by
  simp only [leaderOfSet, if_neg hne]
  rfl

/-! ## 2. Views with a leader

The remainder of Go has the sign of the dividend.  Where the sum is negative, a view has a leader
only if the sum is a multiple of `N`, and that leader is the first validator, whatever the turn. -/

/-- The view has a leader: its index is not negative, or the remainder is 0. -/
def Seats (s : ValidatorSet) (leader0 : String) (view : ℕ) : Prop :=
  s.origin leader0 + view < 2 ^ 63 ∨ 2 ^ 64 ≤ s.origin leader0 + view ∨
    s.validators.length ∣ 2 ^ 64 - (s.origin leader0 + view)

instance (s : ValidatorSet) (leader0 : String) (view : ℕ) : Decidable (s.Seats leader0 view) :=
  inferInstanceAs (Decidable (_ ∨ _ ∨ _))

theorem getElem?_mod_isSome {l : List String} (hne : l ≠ []) (t : ℕ) :
    ∃ m ∈ l, l[t % l.length]? = some m := by
  have hlt := Nat.mod_lt t (List.length_pos_of_ne_nil hne)
  exact ⟨_, List.getElem_mem hlt, List.getElem?_eq_getElem hlt⟩

/-- **A view has a leader among the members, or looking it up is a panic.** -/
theorem leaderOfSet_cases (leader0 : String) (hne : s.validators ≠ [])
    (hlen : s.validators.length < 2 ^ 63) (hview : view < 2 ^ 64) :
    (s.Seats leader0 view ∧ ∃ m ∈ s.validators, leaderOfSet leader0 (some s) view = some m) ∨
      (¬ s.Seats leader0 view ∧ leaderOfSet leader0 (some s) view = none) := by
  have horigin := origin_lt leader0 hne
  rw [leaderOfSet_eq_seat hne]
  unfold Seats
  generalize s.origin leader0 = start at horigin ⊢
  rcases Nat.lt_or_ge (start + view) (2 ^ 63) with hlow | hhigh
  · rw [int64_lower hlow, seat_natCast]
    exact Or.inl ⟨Or.inl hlow, getElem?_mod_isSome hne _⟩
  rcases Nat.lt_or_ge (start + view) (2 ^ 64) with hup | haround
  · rw [int64_upper hhigh hup, seat_neg]
    by_cases hdvd : s.validators.length ∣ 2 ^ 64 - (start + view)
    · rw [if_pos hdvd, ← Nat.zero_mod s.validators.length]
      exact Or.inl ⟨Or.inr (Or.inr hdvd), getElem?_mod_isSome hne 0⟩
    · rw [if_neg hdvd]
      exact Or.inr ⟨by omega, rfl⟩
  · rw [int64_around haround (by omega), seat_natCast]
    exact Or.inl ⟨Or.inr (Or.inl haround), getElem?_mod_isSome hne _⟩

theorem leaderOfSet_mem_iff (hne : s.validators ≠ []) (hlen : s.validators.length < 2 ^ 63)
    (hview : view < 2 ^ 64) :
    (∃ m ∈ s.validators, leaderOfSet leader0 (some s) view = some m) ↔ s.Seats leader0 view := by
  rcases leaderOfSet_cases leader0 hne hlen hview with ⟨hs, hm⟩ | ⟨hs, hnone⟩
  · exact iff_of_true hm hs
  · refine iff_of_false ?_ hs
    rintro ⟨m, -, hm⟩
    rw [hnone] at hm
    cases hm

theorem leaderOfSet_eq_none_iff (hne : s.validators ≠ []) (hlen : s.validators.length < 2 ^ 63)
    (hview : view < 2 ^ 64) :
    leaderOfSet leader0 (some s) view = none ↔ ¬ s.Seats leader0 view := by
  rcases leaderOfSet_cases leader0 hne hlen hview with ⟨hs, m, -, hm⟩ | ⟨hs, hnone⟩
  · rw [hm]
    exact iff_of_false (by simp) (not_not.mpr hs)
  · exact iff_of_true hnone hs

/-- The leaders of as many views as there are validators, from view `v` on. -/
def window (s : ValidatorSet) (leader0 : String) (v : ℕ) : List (Option String) :=
  (List.range s.validators.length).map fun i => leaderOfSet leader0 (some s) (v + i)

/-- The window ends before the index turns negative, or at the one view where it turns to 0. -/
def Rotates (s : ValidatorSet) (leader0 : String) (v : ℕ) : Prop :=
  s.validators.length = 1 ∨ s.origin leader0 + v + s.validators.length ≤ 2 ^ 63 ∨
    (s.origin leader0 + v + s.validators.length = 2 ^ 63 + 1 ∧ s.validators.length ∣ 2 ^ 63)

instance (s : ValidatorSet) (leader0 : String) (v : ℕ) : Decidable (s.Rotates leader0 v) :=
  inferInstanceAs (Decidable (_ ∨ _ ∨ _ ∧ _))

theorem map_range_rotate (l : List String) (a : ℕ) :
    (List.range l.length).map (fun i => l[(a + i) % l.length]?) = (l.rotate a).map some := by
  refine List.ext_getElem (by simp) fun i hi hi' => ?_
  have hlt : i < l.length := by simpa using hi
  rw [List.getElem_map, List.getElem_map, List.getElem_range, List.getElem_rotate, Nat.add_comm,
    List.getElem?_eq_getElem]

theorem leaderOfSet_of_rotates (hne : s.validators ≠ []) {i : ℕ} (h : s.Rotates leader0 v)
    (hv : v + s.validators.length ≤ 2 ^ 64) (hi : i < s.validators.length) :
    leaderOfSet leader0 (some s) (v + i) =
      s.validators[(s.origin leader0 + v + i) % s.validators.length]? := by
  have horigin := origin_lt leader0 hne
  rw [leaderOfSet_eq_seat hne, ← Nat.add_assoc]
  unfold Rotates at h
  generalize s.origin leader0 = start at h horigin ⊢
  rcases Nat.lt_or_ge (start + v + i) (2 ^ 63) with hlow | hhigh
  · rw [int64_lower hlow, seat_natCast]
  rcases h with hone | hbefore | ⟨hat, hdvd⟩
  · -- one validator: every remainder is 0
    rw [int64_upper hhigh (by omega), seat_neg, hone, if_pos (Nat.one_dvd _),
      Nat.mod_one]
  · omega
  · obtain hlast : start + v + i = 2 ^ 63 := by omega
    rw [hlast, int64_upper (le_refl _) (by decide), seat_neg, Nat.mod_eq_zero_of_dvd hdvd]
    exact if_pos hdvd

/-- A window in which every view has a leader rotates: of two neighbours with a negative index one
has a remainder other than 0. -/
theorem rotates_of_seats (hne : s.validators ≠ []) (hv : v + s.validators.length ≤ 2 ^ 64)
    (h : ∀ i < s.validators.length, s.Seats leader0 (v + i)) : s.Rotates leader0 v := by
  have horigin := origin_lt leader0 hne
  unfold Seats at h
  unfold Rotates
  generalize s.origin leader0 = start at h horigin ⊢
  generalize s.validators.length = N at h horigin hv ⊢
  by_contra hnot
  obtain ⟨hone, hpast⟩ : N ≠ 1 ∧ 2 ^ 63 < start + v + N := by omega
  have hunit : ¬ N ∣ 1 := fun hd => hone (Nat.dvd_one.mp hd)
  rcases Nat.lt_or_ge (start + v + (N - 1)) (2 ^ 64) with hin | hover
  · -- the last view of the window has a negative index, and so has the one before it
    have hlast : N ∣ 2 ^ 64 - (start + v + (N - 1)) := by
      have := h (N - 1) (by omega)
      rw [← Nat.add_assoc] at this
      omega
    by_cases hedge : start + v + N = 2 ^ 63 + 1
    · have hhalf : 2 ^ 64 - (start + v + (N - 1)) = 2 ^ 63 := by omega
      rw [hhalf] at hlast
      exact hnot (Or.inr (Or.inr ⟨hedge, hlast⟩))
    · have hprev : N ∣ 2 ^ 64 - (start + v + (N - 1)) + 1 := by
        have := h (N - 2) (by omega)
        rw [← Nat.add_assoc] at this
        have heq : 2 ^ 64 - (start + v + (N - 2)) = 2 ^ 64 - (start + v + (N - 1)) + 1 := by omega
        rw [heq] at this
        omega
      exact hunit ((Nat.dvd_add_right hlast).mp hprev)
  · -- the window meets the last negative index, -1
    have hminus : N ∣ 1 := by
      have := h (2 ^ 64 - 1 - (start + v)) (by omega)
      have heq : 2 ^ 64 - (start + (v + (2 ^ 64 - 1 - (start + v)))) = 1 := by omega
      rw [heq] at this
      omega
    exact hunit hminus

/-- **A window visits every validator once** exactly when it rotates. -/
theorem window_perm_iff (hne : s.validators ≠ []) (hlen : s.validators.length < 2 ^ 63)
    (hv : v + s.validators.length ≤ 2 ^ 64) :
    (s.window leader0 v).Perm (s.validators.map some) ↔ s.Rotates leader0 v := by
  constructor
  · intro hperm
    refine rotates_of_seats hne hv fun i hi => ?_
    by_contra hnot
    have hnone : leaderOfSet leader0 (some s) (v + i) = none :=
      (leaderOfSet_eq_none_iff hne hlen (by omega)).mpr hnot
    have hmem : none ∈ s.window leader0 v :=
      List.mem_map.mpr ⟨i, List.mem_range.mpr hi, hnone⟩
    simpa using hperm.mem_iff.mp hmem
  · intro hrot
    have hwindow : s.window leader0 v = (s.validators.rotate (s.origin leader0 + v)).map some := by
      rw [← map_range_rotate]
      refine List.map_congr_left fun i hi => ?_
      exact leaderOfSet_of_rotates hne hrot hv (List.mem_range.mp hi)
    rw [hwindow]
    exact (List.rotate_perm _ _).map some

end ValidatorSet

/-! ## 3. Views in messages -/

namespace Message

/-- A message that can make a replica look up a leader. -/
def steers : Message → Bool
  | viewChange _ => true
  | proposal _ => true
  | _ => false

/-- The signature of a view change or a proposal, against the keys of `set`. -/
def signedIn (E : Env) (set : ValidatorSet) : Message → Bool
  | viewChange vc => verifyInSet E set vc.sender vc.sig vc.signable
  | proposal p => verifyInSet E set p.sender p.sig p.signable
  | _ => true

end Message

namespace Replica

variable {E : Env} {C : Ctx} {n : Replica} {set : ValidatorSet} {view : ℕ} {m : Message}

/-- The set and the view whose leader a replica looks up before it checks the signature of a
message. -/
def consults (E : Env) (n : Replica) : Message → Option (ValidatorSet × ℕ)
  | .viewChange vc =>
    match n.sets.lookup n.epoch with
    | none => none
    | some set => if vc.epoch = n.epoch ∧ set.has vc.sender then some (set, vc.view) else none
  | .proposal p =>
    let b := p.block
    match n.blocks.lookup b.parent, n.epochAndSetOfLocked E b with
    | some parent, (want, some set) =>
      if b.id = blockID b.view b.height b.parent b.cmd ∧ b.id ∉ n.blocks ∧
          n.heightOf n.bExec < b.height ∧ n.justified E b parent ∧ b.epoch = want
      then some (set, b.view) else none
    | _, _ => none
  | _ => none

theorem consults_viewChange {vc : ViewChange} :
    n.consults E (.viewChange vc) = some (set, view) ↔
      vc.epoch = n.epoch ∧ n.sets.lookup n.epoch = some set ∧ set.has vc.sender = true ∧
        view = vc.view := by
  unfold consults
  dsimp only
  split
  next hnone => simp [hnone]
  next set' hset =>
    rw [hset]
    by_cases hcond : vc.epoch = n.epoch ∧ set'.has vc.sender = true
    · rw [if_pos hcond]
      constructor
      · intro h
        cases h
        exact ⟨hcond.1, rfl, hcond.2, rfl⟩
      · rintro ⟨-, hs, -, rfl⟩
        cases hs
        rfl
    · rw [if_neg hcond]
      refine iff_of_false (by simp) ?_
      rintro ⟨he, hs, hh, -⟩
      cases hs
      exact hcond ⟨he, hh⟩

theorem consults_proposal {p : Proposal} :
    n.consults E (.proposal p) = some (set, view) ↔
      ∃ parent, n.blocks.lookup p.block.parent = some parent ∧
        n.epochAndSetOfLocked E p.block = (p.block.epoch, some set) ∧
        p.block.id = blockID p.block.view p.block.height p.block.parent p.block.cmd ∧
        p.block.id ∉ n.blocks ∧ n.heightOf n.bExec < p.block.height ∧
        n.justified E p.block parent = true ∧ view = p.block.view := by
  unfold consults
  dsimp only
  cases hp : n.blocks.lookup p.block.parent with
  | none => simp
  | some parent =>
    rcases hset : n.epochAndSetOfLocked E p.block with ⟨want, _ | set'⟩
    · simp
    · dsimp only
      constructor
      · intro h
        split at h
        next hcond =>
          cases h
          obtain ⟨hid, hnew, hhigh, hjust, rfl⟩ := hcond
          exact ⟨parent, rfl, rfl, hid, hnew, hhigh, hjust, rfl⟩
        · cases h
      · rintro ⟨parent', hp', hs, hid, hnew, hhigh, hjust, rfl⟩
        cases hp'
        cases hs
        exact if_pos ⟨hid, hnew, hhigh, hjust, rfl⟩

/-- **A view without a leader ends the process**, whoever has signed the message. -/
theorem handle_of_unseated (h : n.consults E m = some (set, view))
    (hnone : leaderOfSet n.leader0 (some set) view = none) :
    n.handle E C (.deliver m) = n.crash := by
  cases m with
  | viewChange vc =>
    obtain ⟨hepoch, hset, hhas, rfl⟩ := consults_viewChange.mp h
    change n.handleViewChange E C vc = _
    unfold handleViewChange leaderOfEpoch
    simp [hepoch, hset, hhas, hnone]
  | proposal p =>
    obtain ⟨parent, hp, hset, hid, hnew, hhigh, hjust, rfl⟩ := consults_proposal.mp h
    have hlocked : n.handleProposalLocked E C p = (n.crash, {}) := by
      unfold handleProposalLocked
      simp only [hp, hset, hjust, hnone]
      rw [if_neg (not_not.mpr hid), if_neg hnew, if_neg (Nat.not_le.mpr hhigh)]
      simp
    change (n.handleProposal E C p).1 = _
    unfold handleProposal
    rw [hlocked]
    rfl
  | vote | fetch | block | getBlocks | blockBatch => cases h

theorem bufferProposal_panicked (p : Proposal) :
    (n.bufferProposal C p).1.panicked = n.panicked := by
  unfold bufferProposal markSyncLocked markFetchLocked
  dsimp only
  split <;> split <;> rfl

/-- **An unsigned message does nothing more than that**: if the view has a leader, or no leader is
looked up, the replica goes on. -/
theorem handle_unsigned (hm : m.steers = true)
    (hsig : ∀ set view, n.consults E m = some (set, view) → m.signedIn E set = false ∧
      leaderOfSet n.leader0 (some set) view ≠ none) :
    (n.handle E C (.deliver m)).panicked = n.panicked := by
  cases m with
  | viewChange vc =>
    change (n.handleViewChange E C vc).panicked = _
    unfold handleViewChange
    split
    · rfl
    next hepoch =>
    split
    · rfl
    next set hset =>
    split
    · rfl
    next hhas =>
    obtain ⟨hforged, hleader⟩ := hsig set vc.view (consults_viewChange.mpr
      ⟨not_not.mp hepoch, hset, by simpa using hhas, rfl⟩)
    have hforged : verifyInSet E set vc.sender vc.sig vc.signable = false := hforged
    split
    next hnone => exact absurd (by rw [← hset]; exact hnone) hleader
    · split
      · rfl
      · rw [if_pos (Or.inl (by simp [hforged]))]
  | proposal p =>
    have hlocked : (n.handleProposalLocked E C p).1.panicked = n.panicked := by
      unfold handleProposalLocked
      dsimp only
      split
      · rfl
      next hid =>
      split
      · rfl
      next hnew =>
      split
      · rfl
      next hhigh =>
      split
      · exact bufferProposal_panicked p
      next parent hp =>
      split
      · rfl
      next hjust =>
      split
      · rfl
      next want set hset =>
      split
      · rfl
      next hepoch =>
      have hepoch : p.block.epoch = want := not_not.mp hepoch
      obtain ⟨hforged, hleader⟩ := hsig set p.block.view (consults_proposal.mpr
        ⟨parent, hp, by rw [hset, hepoch], not_not.mp hid, hnew, Nat.not_le.mp hhigh,
          by simpa using hjust, rfl⟩)
      have hforged : verifyInSet E set p.sender p.sig p.signable = false := hforged
      split
      next hnone => exact absurd hnone hleader
      · rw [if_pos (Or.inr (by simp [hforged]))]
    change (n.handleProposal E C p).1.panicked = _
    rw [← hlocked]
    exact sendAll_panicked _ _
  | vote | fetch | block | getBlocks | blockBatch => cases hm

end Replica

/-- **The leader schedule.**  A view has a leader among the members exactly when it seats one; `N`
views from `v` on visit each of the `N` validators once exactly when they rotate; and a view change
or a proposal nobody has signed leaves a replica running exactly when the view it is made to look
up seats a leader. -/
theorem schedule_total_fair_iff (E : Env) (s : ValidatorSet) (hs : Reachable E s)
    (hlen : s.validators.length < 2 ^ 63) (leader0 : String) :
    (∀ view < 2 ^ 64, (∃ m ∈ s.validators, leaderOfSet leader0 (some s) view = some m) ↔
      s.Seats leader0 view) ∧
    (∀ v, v + s.validators.length ≤ 2 ^ 64 →
      ((s.window leader0 v).Perm (s.validators.map some) ↔ s.Rotates leader0 v)) ∧
    ∀ (C : Ctx) (n : Replica) (m : Message), n.panicked = false → m.steers = true →
      (∀ set view, n.consults E m = some (set, view) → set.validators ≠ [] ∧
        set.validators.length < 2 ^ 63 ∧ view < 2 ^ 64 ∧ m.signedIn E set = false) →
      ((n.handle E C (.deliver m)).panicked = false ↔
        ∀ set view, n.consults E m = some (set, view) → set.Seats n.leader0 view) := by
  have hne := hs.wellFormed.nonempty
  refine ⟨fun view hview => ValidatorSet.leaderOfSet_mem_iff hne hlen hview,
    fun v hv => ValidatorSet.window_perm_iff hne hlen hv, ?_⟩
  intro C n m hrun hm hforged
  constructor
  · intro hgoes set view hcon
    obtain ⟨hne, hlen, hview, -⟩ := hforged set view hcon
    by_contra hnot
    have hnone := (ValidatorSet.leaderOfSet_eq_none_iff hne hlen hview).mpr hnot
    rw [Replica.handle_of_unseated hcon hnone] at hgoes
    cases hgoes
  · intro hseats
    rw [← hrun]
    refine Replica.handle_unsigned hm fun set view hcon => ?_
    obtain ⟨hne, hlen, hview, hsig⟩ := hforged set view hcon
    refine ⟨hsig, fun hnone => ?_⟩
    exact (ValidatorSet.leaderOfSet_eq_none_iff hne hlen hview).mp hnone (hseats set view hcon)

/-- Somebody asks for a view in the name of `L1`, without a signature. -/
def forgedViewChange (view : ℕ) : ViewChange :=
  { view := view, epoch := 0, highQC := none, sender := "L1", sig := [] }

/-- `L0`, just started. -/
def startedL0 : Replica := ((four false).start plainEnv).replica "L0"

theorem schedule_total_fair_four :
    (setOfFour.window "a" 5).Perm (setOfFour.validators.map some) ∧
      (startedL0.handle plainEnv Move.still (.deliver (.viewChange (forgedViewChange 9)))).panicked =
        false := by
  obtain ⟨-, hwindow, hmessage⟩ :=
    schedule_total_fair_iff plainEnv setOfFour reachable_setOfFour (by decide) "a"
  have hcon : startedL0.consults plainEnv (.viewChange (forgedViewChange 9)) =
      (startedL0.sets.lookup 0).map fun set => (set, 9) := by decide +kernel
  have hset : ∀ set ∈ startedL0.sets.lookup 0, set.validators ≠ [] ∧
      set.validators.length < 2 ^ 63 ∧ set.Seats startedL0.leader0 9 ∧
      Message.signedIn plainEnv set (.viewChange (forgedViewChange 9)) = false := by
    decide +kernel
  have hlooked : ∀ set view, startedL0.consults plainEnv (.viewChange (forgedViewChange 9)) =
      some (set, view) → set ∈ startedL0.sets.lookup 0 ∧ view = 9 := by
    intro set view h
    rw [hcon] at h
    obtain ⟨set', hset', heq⟩ := Option.map_eq_some_iff.mp h
    cases heq
    exact ⟨hset', rfl⟩
  refine ⟨(hwindow 5 (by decide)).mpr (by decide),
    (hmessage Move.still startedL0 (.viewChange (forgedViewChange 9)) (by decide +kernel) rfl
      fun set view h => ?_).mpr fun set view h => ?_⟩
  · obtain ⟨hin, rfl⟩ := hlooked set view h
    obtain ⟨hne, hlen, -, hsig⟩ := hset set hin
    exact ⟨hne, hlen, by decide, hsig⟩
  · obtain ⟨hin, rfl⟩ := hlooked set view h
    exact (hset set hin).2.2.1

/-- **A view without a leader**: of four validators none leads view 2^63 + 1, four views around it
visit nobody, and an unsigned view change that names it ends the process. -/
theorem schedule_total_fair_fails :
    Reachable plainEnv setOfFour ∧ leaderOfSet "a" (some setOfFour) (2 ^ 63 + 1) = none ∧
      ¬ (setOfFour.window "a" (2 ^ 63)).Perm (setOfFour.validators.map some) ∧
      startedL0.panicked = false ∧
      (∀ set ∈ startedL0.sets.lookup 0, Message.signedIn plainEnv set
        (.viewChange (forgedViewChange (2 ^ 63 + 1))) = false) ∧
      (startedL0.handle plainEnv Move.still
        (.deliver (.viewChange (forgedViewChange (2 ^ 63 + 1))))).panicked = true :=
  ⟨reachable_setOfFour, by decide +kernel, by decide +kernel, by decide +kernel,
    by decide +kernel, by decide +kernel⟩

end Cachey.HotStuff
