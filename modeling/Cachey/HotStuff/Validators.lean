/-
# The sizes of reachable validator sets

Every safety argument of the engine counts: two certificates of one epoch are two sets of
`quorum` validators, and at most `f` validators are faulty.  The counting works when any two
quorums share `f + 1` validators, so that one of the shared ones is correct.

`newValidatorSet` takes `f = (N-1)/3` and `quorum = 2f+1` for EVERY number `N` of validators, and
the membership changes of `apply` take `N` through every residue modulo 3.  This file settles
which of the reachable sets have the intersection property:

* `Reachable`: the sets that `NewReplica` accepts as genesis, closed under `apply`;
* `Reachable.wellFormed`: what `apply` keeps (distinct ids, not empty, `f` and `quorum` as
  computed);
* `quorum_intersection_iff`: exactly the sets with `N % 3 = 1`.

The second half of the requirement, that a quorum remains when `f` validators are gone, holds for
every reachable set (`WellFormed.quorum_survives`).
-/
import Cachey.HotStuff.Schedule
import Cachey.Lib.Quorum

namespace Cachey.HotStuff

/-! ## 1. Reachable sets -/

/-- A validator set that comes from a genesis set `NewReplica` accepts, by membership changes
that `apply` accepts. -/
inductive Reachable (E : Env) : ValidatorSet → Prop where
  | genesis {cfg : Config} {n : Replica} {s : ValidatorSet}
      (hnew : newReplica E cfg = .ok n) (hset : n.sets.lookup 0 = some s) : Reachable E s
  | apply {s s' : ValidatorSet} {mc : MembershipChange}
      (h : Reachable E s) (happly : s.apply mc = some s') : Reachable E s'

namespace ValidatorSet

def members (s : ValidatorSet) : Finset String := s.validators.toFinset

/-- Distinct ids, at least one, and the fault bound and quorum of `newValidatorSet`. -/
structure WellFormed (s : ValidatorSet) : Prop where
  nodup : s.validators.Nodup
  nonempty : s.validators ≠ []
  f_eq : s.f = (s.validators.length - 1) / 3
  quorum_eq : s.quorum = 2 * s.f + 1

variable {s s' : ValidatorSet} {mc : MembershipChange}

theorem WellFormed.card_members (h : s.WellFormed) : s.members.card = s.validators.length :=
  List.toFinset_card_of_nodup h.nodup

theorem wellFormed_newValidatorSet {ids : List String} (hnodup : ids.Nodup) (hne : ids ≠ [])
    (epoch : Nat) (keys : GoMap String Bytes) :
    (newValidatorSet epoch (sortStrings ids) keys).WellFormed where
  nodup := (List.perm_insertionSort _ ids).nodup_iff.mpr hnodup
  nonempty := by
    intro hnil
    have hlen := congrArg List.length hnil
    simp only [newValidatorSet, sortStrings, List.length_insertionSort, List.length_nil] at hlen
    exact hne (List.length_eq_zero_iff.mp hlen)
  f_eq := rfl
  quorum_eq := rfl

/-! ### What `apply` accepts, and what it makes of it -/

theorem foldlM_removeMember : ∀ (rs : List String) {ids ids' : List String}, ids.Nodup →
    (rs.foldlM removeMember ids = some ids' ↔
      (rs.Nodup ∧ rs ⊆ ids) ∧ ids' = ids.filter (· ∉ rs))
  | [], ids, ids', _ => by simp [eq_comm]
  | r :: rs, ids, ids', hids => by
    rw [List.foldlM_cons, removeMember]
    split
    next hr =>
      have hfilter : (ids.erase r).filter (· ∉ rs) = ids.filter (· ∉ r :: rs) := by
        rw [hids.erase_eq_filter, List.filter_filter]
        refine List.filter_congr fun x _ => ?_
        by_cases hx : x = r <;> simp [hx]
      have hsub : rs ⊆ ids.erase r ↔ r ∉ rs ∧ rs ⊆ ids := by
        grind
      change rs.foldlM removeMember (ids.erase r) = _ ↔ _
      rw [foldlM_removeMember rs (hids.erase r), hfilter, hsub, List.nodup_cons, List.cons_subset]
      tauto
    next hr =>
      exact ⟨fun h => (nomatch h), fun h => absurd (h.1.2 List.mem_cons_self) hr⟩

/-- The additions bring distinct ids that are not members yet, with keys of the right size. -/
theorem foldlM_addMember : ∀ (adds : List ValidatorEntry) {ids : List String}
    {keys : GoMap String Bytes} {r : List String × GoMap String Bytes},
    adds.foldlM addMember (ids, keys) = some r ↔
      ((adds.map (·.id)).Nodup ∧ ∀ a ∈ adds, a.id ∉ ids ∧ a.pub.length = publicKeySize) ∧
        r = (ids ++ adds.map (·.id), adds.foldl (fun k a => k.insert a.id a.pub) keys)
  | [], ids, keys, r => by simp [eq_comm]
  | a :: adds, ids, keys, r => by
    rw [List.foldlM_cons, addMember]
    split
    next hbad =>
      refine ⟨fun h => (nomatch h), fun h => ?_⟩
      obtain ⟨hnew, hsize⟩ := h.1.2 a List.mem_cons_self
      exact (hbad.elim hnew fun h => h hsize).elim
    next hok =>
      change adds.foldlM addMember (ids ++ [a.id], keys.insert a.id a.pub) = some r ↔ _
      rw [foldlM_addMember adds, List.append_assoc]
      simp only [List.map_cons, List.nodup_cons, List.mem_map, List.forall_mem_cons,
        List.foldl_cons, List.singleton_append, List.mem_append, List.mem_singleton]
      grind

def remaining (s : ValidatorSet) (mc : MembershipChange) : List String :=
  s.validators.dedup.filter (· ∉ mc.remove) ++ mc.add.map (·.id)

def next (s : ValidatorSet) (mc : MembershipChange) : ValidatorSet :=
  newValidatorSet (u64 (s.epoch + 1)) (sortStrings (s.remaining mc))
    (mc.add.foldl (fun k a => k.insert a.id a.pub) s.publicKeys)

/-- A change that makes sense for the set. -/
structure Admits (s : ValidatorSet) (mc : MembershipChange) : Prop where
  removed : mc.remove.Nodup ∧ mc.remove ⊆ s.validators
  added : (mc.add.map (·.id)).Nodup
  fresh : ∀ a ∈ mc.add, (a.id ∈ s.validators → a.id ∈ mc.remove) ∧ a.pub.length = publicKeySize
  left : s.remaining mc ≠ []

theorem apply_eq_some_iff : s.apply mc = some s' ↔ s.Admits mc ∧ s' = s.next mc := by
  have hsub : mc.remove ⊆ s.validators.dedup ↔ mc.remove ⊆ s.validators := by
    simp [List.subset_def]
  have hremove : ∀ ids, mc.remove.foldlM removeMember s.validators.dedup = some ids ↔
      (mc.remove.Nodup ∧ mc.remove ⊆ s.validators) ∧
        ids = s.validators.dedup.filter (· ∉ mc.remove) := by
    intro ids
    rw [foldlM_removeMember mc.remove (List.nodup_dedup s.validators), hsub]
  have hfresh : (∀ a ∈ mc.add, a.id ∉ s.validators.dedup.filter (· ∉ mc.remove) ∧
      a.pub.length = publicKeySize) ↔ ∀ a ∈ mc.add,
        (a.id ∈ s.validators → a.id ∈ mc.remove) ∧ a.pub.length = publicKeySize := by
    simp
  unfold ValidatorSet.apply
  constructor
  · intro h
    split at h
    next => cases h
    next members hr =>
      obtain ⟨hrem, rfl⟩ := (hremove members).mp hr
      split at h
      next => cases h
      next members' keys hadd =>
        obtain ⟨⟨hnodup, hnew⟩, hboth⟩ := (foldlM_addMember mc.add).mp hadd
        cases hboth
        split at h
        next => cases h
        next hne => exact ⟨⟨hrem, hnodup, hfresh.mp hnew, hne⟩, (Option.some.inj h).symm⟩
  · rintro ⟨h, rfl⟩
    rw [(hremove _).mpr ⟨h.removed, rfl⟩]
    dsimp only
    rw [(foldlM_addMember mc.add).mpr ⟨⟨h.added, hfresh.mpr h.fresh⟩, rfl⟩]
    exact if_neg h.left

theorem Admits.nodup (h : s.Admits mc) : (s.remaining mc).Nodup := by
  refine List.nodup_append.mpr ⟨(List.nodup_dedup _).filter _, h.added, ?_⟩
  rintro x hx y hy rfl
  obtain ⟨a, ha, rfl⟩ := List.mem_map.mp hy
  simp only [List.mem_filter, List.mem_dedup, decide_eq_true_eq] at hx
  exact hx.2 ((h.fresh a ha).1 hx.1)

/-- The set of the next epoch is well formed, whatever the change and whatever the set. -/
theorem wellFormed_of_apply (h : s.apply mc = some s') : s'.WellFormed := by
  obtain ⟨hadmits, rfl⟩ := apply_eq_some_iff.mp h
  exact wellFormed_newValidatorSet hadmits.nodup hadmits.left _ _

theorem lookup_added {id : String} {pub : Bytes} : ∀ (adds : List ValidatorEntry)
    (keys : GoMap String Bytes), (adds.map (·.id)).Nodup →
    ((adds.foldl (fun k a => k.insert a.id a.pub) keys).lookup id = some pub ↔
      (∃ a ∈ adds, a.id = id ∧ a.pub = pub) ∨
        id ∉ adds.map (·.id) ∧ keys.lookup id = some pub)
  | [], keys, _ => by simp
  | a :: adds, keys, hnodup => by
    rw [List.map_cons, List.nodup_cons] at hnodup
    rw [List.foldl_cons, lookup_added adds _ hnodup.2, GoMap.lookup_insert_of]
    grind

end ValidatorSet

theorem nodup_of_firstDuplicate : ∀ (l seen : List String), firstDuplicate seen l = none →
    l.Nodup ∧ ∀ x ∈ l, x ∉ seen
  | [], _, _ => ⟨List.nodup_nil, by simp⟩
  | id :: rest, seen, h => by
    unfold firstDuplicate at h
    split at h
    next => cases h
    next hnew =>
      obtain ⟨hrest, hseen⟩ := nodup_of_firstDuplicate rest (id :: seen) h
      refine ⟨List.nodup_cons.mpr ⟨fun hm => hseen id hm List.mem_cons_self, hrest⟩, ?_⟩
      intro x hx
      rcases List.mem_cons.mp hx with rfl | hx
      · exact hnew
      · exact fun hm => hseen x hx (List.mem_cons_of_mem _ hm)

variable {s : ValidatorSet} {E : Env}

theorem wellFormed_genesis {cfg : Config} {n : Replica} (hnew : newReplica E cfg = .ok n)
    (hset : n.sets.lookup 0 = some s) : s.WellFormed := by
  unfold newReplica at hnew
  split at hnew
  next => cases hnew
  next =>
    dsimp only at hnew
    generalize (if cfg.leader = "" then cfg.id else cfg.leader) = leader at hnew
    split at hnew
    next => cases hnew
    next hdup =>
      split at hnew
      next => cases hnew
      next =>
        cases hnew
        rw [AList.lookup_insert] at hset
        cases hset
        exact ValidatorSet.wellFormed_newValidatorSet (nodup_of_firstDuplicate _ _ hdup).1
          (List.cons_ne_nil _ _) _ _

theorem Reachable.wellFormed (h : Reachable E s) : s.WellFormed := by
  induction h with
  | genesis hnew hset => exact wellFormed_genesis hnew hset
  | apply _ happly _ => exact ValidatorSet.wellFormed_of_apply happly

/-! ## 2. Counting

Quorums of `2f + 1` out of `N` overlap in `4f + 2 - N` validators at least, and some two of them in
no more.  With `f = (N - 1) / 3` that is `f + 1` for `N = 3f + 1`, and less for the two sizes above.
-/

namespace ValidatorSet

/-- Any two quorums share at least `f + 1` validators. -/
def QuorumsIntersect (s : ValidatorSet) : Prop :=
  ∀ Q₁ ⊆ s.members, ∀ Q₂ ⊆ s.members, Q₁.card = s.quorum → Q₂.card = s.quorum →
    s.f + 1 ≤ (Q₁ ∩ Q₂).card

/-- A quorum remains when any `f` validators are removed. -/
def QuorumSurvives (s : ValidatorSet) : Prop :=
  ∀ faulty ⊆ s.members, faulty.card = s.f → s.quorum ≤ (s.members \ faulty).card

namespace WellFormed

variable {s : ValidatorSet}

theorem length_pos (h : s.WellFormed) : 0 < s.validators.length :=
  List.length_pos_of_ne_nil h.nonempty

theorem quorum_le (h : s.WellFormed) : s.quorum ≤ s.members.card := by
  have := h.length_pos
  rw [h.quorum_eq, h.f_eq, h.card_members]
  omega

theorem quorum_survives (h : s.WellFormed) : s.QuorumSurvives := by
  intro faulty hsub hcard
  have := h.length_pos
  rw [Finset.card_sdiff_of_subset hsub, hcard, h.card_members, h.quorum_eq, h.f_eq]
  omega

/-- Two quorums share `4f + 2 - N` validators at least, and `f + 1` of them exactly when `N` is
`3f + 1`. -/
theorem quorumsIntersect_iff (h : s.WellFormed) :
    s.QuorumsIntersect ↔ s.validators.length % 3 = 1 := by
  have hpos := h.length_pos
  rw [QuorumsIntersect, forall_inter_iff h.quorum_le, h.card_members, h.quorum_eq, h.f_eq]
  omega

end WellFormed

end ValidatorSet

/-! ## 3. Which reachable sets have the property -/

/-- **Quorum intersection.**  A reachable validator set has it exactly when its size is `3f + 1`
for some `f`. -/
theorem quorum_intersection_iff (E : Env) (s : ValidatorSet) (h : Reachable E s) :
    (s.QuorumsIntersect ∧ s.QuorumSurvives) ↔ s.validators.length % 3 = 1 := by
  have hwf := h.wellFormed
  constructor
  · rintro ⟨hinter, _⟩
    exact hwf.quorumsIntersect_iff.mp hinter
  · intro hsize
    exact ⟨hwf.quorumsIntersect_iff.mpr hsize, hwf.quorum_survives⟩

/-- The configuration of replica `a` in a cluster of four. -/
def configOfFour : Config :=
  { id := "a", peers := ["b", "c", "d"], leader := "a", privateKey := [1] }

/-- The genesis set of `configOfFour`. -/
def setOfFour : ValidatorSet :=
  newValidatorSet 0 ["a", "b", "c", "d"]
    ((∅ : GoMap String Bytes).insert "a" (plainEnv.publicKey [1]))

def addE : MembershipChange := { add := [⟨"e", List.replicate 32 0⟩], remove := [] }

/-- The set `addE` leads to. -/
def setOfFive : ValidatorSet :=
  newValidatorSet 1 ["a", "b", "c", "d", "e"]
    (setOfFour.publicKeys.insert "e" (List.replicate 32 0))

theorem reachable_setOfFour : Reachable plainEnv setOfFour := by
  obtain ⟨n, hn, hset⟩ : ∃ n, newReplica plainEnv configOfFour = .ok n ∧
      n.sets.lookup 0 = some setOfFour := ⟨_, rfl, by decide +kernel⟩
  exact .genesis hn hset

theorem reachable_setOfFive : Reachable plainEnv setOfFive :=
  .apply reachable_setOfFour (by decide +kernel : setOfFour.apply addE = some setOfFive)

theorem quorum_intersection_four :
    Reachable plainEnv setOfFour ∧ setOfFour.validators.length % 3 = 1 ∧
      setOfFour.QuorumsIntersect ∧ setOfFour.QuorumSurvives :=
  ⟨reachable_setOfFour, by decide,
    (quorum_intersection_iff plainEnv setOfFour reachable_setOfFour).mpr (by decide)⟩

/-- Of five validators `a`, `b`, `c` are a quorum and so are `c`, `d`, `e`: if the one validator
they share is the one faulty validator, two conflicting blocks are certified. -/
theorem quorum_intersection_fails :
    Reachable plainEnv setOfFive ∧ setOfFive.f = 1 ∧ setOfFive.quorum = 3 ∧
      ¬ (setOfFive.QuorumsIntersect ∧ setOfFive.QuorumSurvives) := by
  refine ⟨reachable_setOfFive, rfl, rfl, ?_⟩
  rintro ⟨hinter, _⟩
  have h := hinter {"a", "b", "c"} (by decide) {"c", "d", "e"} (by decide) (by decide) (by decide)
  exact absurd h (by decide)

/-! ## 4. Derived sets

`apply` collects ids and keys apart from each other.  The ids are those of a set: sorted, distinct,
independent of the order in the lists.  The keys only GROW: a removed validator's key stays. -/

/-- A set that `k` accepted changes make of a genesis set with a key for each of its members. -/
inductive Derived : ℕ → ValidatorSet → Prop where
  | genesis {ids : List String} {keys : GoMap String Bytes} (hids : ids.Nodup)
      (hkeys : ∀ id, id ∈ keys ↔ id ∈ ids) : Derived 0 (newValidatorSet 0 (sortStrings ids) keys)
  | apply {k : ℕ} {s s' : ValidatorSet} {mc : MembershipChange} (h : Derived k s)
      (happly : s.apply mc = some s') : Derived (k + 1) s'

namespace ValidatorSet

/-- The same ids and keys in the same epoch. -/
structure Same (s s' : ValidatorSet) : Prop where
  epoch : s'.epoch = s.epoch
  validators : s'.validators = s.validators
  keys : ∀ id, s'.publicKeys.lookup id = s.publicKeys.lookup id

/-- Every key belongs to a member. -/
def KeysExact (s : ValidatorSet) : Prop := ∀ id, id ∈ s.publicKeys ↔ id ∈ s.validators

variable {s s' : ValidatorSet} {mc mc' : MembershipChange} {id : String}

theorem sortStrings_sorted (l : List String) : (sortStrings l).Pairwise (· ≤ ·) :=
  List.pairwise_insertionSort _ _

theorem sortStrings_congr {l l' : List String} (h : l.Perm l') : sortStrings l = sortStrings l' := by
  refine List.Perm.eq_of_pairwise (fun _ _ _ _ => le_antisymm) (sortStrings_sorted l)
    (sortStrings_sorted l') ?_
  exact ((List.perm_insertionSort _ l).trans h).trans (List.perm_insertionSort _ l').symm

theorem remaining_perm (hadd : mc.add.Perm mc'.add) (hremove : mc.remove.Perm mc'.remove) :
    (s.remaining mc).Perm (s.remaining mc') := by
  refine List.Perm.append (List.Perm.of_eq ?_) (hadd.map _)
  exact List.filter_congr fun x _ => by simp [hremove.mem_iff]

theorem Admits.perm (h : s.Admits mc) (hadd : mc.add.Perm mc'.add)
    (hremove : mc.remove.Perm mc'.remove) : s.Admits mc' where
  removed := ⟨hremove.nodup_iff.mp h.removed.1, fun _ hx => h.removed.2 (hremove.mem_iff.mpr hx)⟩
  added := (hadd.map _).nodup_iff.mp h.added
  fresh a ha := by
    rw [← hremove.mem_iff]
    exact h.fresh a (hadd.mem_iff.mpr ha)
  left hnil := h.left (List.Perm.eq_nil (hnil ▸ remaining_perm hadd hremove))

theorem Admits.same (h : s.Admits mc) (hadd : mc.add.Perm mc'.add)
    (hremove : mc.remove.Perm mc'.remove) : (s.next mc).Same (s.next mc') where
  epoch := rfl
  validators := (sortStrings_congr (remaining_perm hadd hremove)).symm
  keys id := by
    ext pub
    rw [next, next, newValidatorSet, newValidatorSet, lookup_added _ _ h.added,
      lookup_added _ _ (h.perm hadd hremove).added]
    simp only [(hadd.map _).mem_iff, hadd.mem_iff]

theorem apply_perm (s : ValidatorSet) (hadd : mc.add.Perm mc'.add)
    (hremove : mc.remove.Perm mc'.remove) : Option.Rel Same (s.apply mc) (s.apply mc') := by
  by_cases h : s.Admits mc
  · rw [apply_eq_some_iff.mpr ⟨h, rfl⟩, apply_eq_some_iff.mpr ⟨h.perm hadd hremove, rfl⟩]
    exact .some (h.same hadd hremove)
  · have hnone : ∀ mc : MembershipChange, ¬ s.Admits mc → s.apply mc = none := by
      intro mc hno
      rw [Option.eq_none_iff_forall_ne_some]
      exact fun s' hs' => hno (apply_eq_some_iff.mp hs').1
    rw [hnone mc h, hnone mc' fun h' => h (h'.perm hadd.symm hremove.symm)]
    exact .none

theorem mem_validators_next : id ∈ (s.next mc).validators ↔
    (id ∈ s.validators ∧ id ∉ mc.remove) ∨ id ∈ mc.add.map (·.id) := by
  change id ∈ sortStrings (s.remaining mc) ↔ _
  rw [sortStrings, List.mem_insertionSort, remaining, List.mem_append]
  simp

theorem mem_keys_next : id ∈ (s.next mc).publicKeys ↔
    id ∈ s.publicKeys ∨ id ∈ mc.add.map (·.id) := by
  suffices h : ∀ (adds : List ValidatorEntry) (keys : GoMap String Bytes),
      id ∈ adds.foldl (fun k a => k.insert a.id a.pub) keys ↔ id ∈ keys ∨ id ∈ adds.map (·.id) from
    h mc.add s.publicKeys
  intro adds
  induction adds with
  | nil => simp
  | cons a adds ih =>
    intro keys
    rw [List.foldl_cons, ih, AList.mem_insert, List.map_cons, List.mem_cons]
    tauto

theorem keysExact_next_iff (hkeys : ∀ id ∈ s.validators, id ∈ s.publicKeys) :
    (s.next mc).KeysExact ↔ ∀ id ∈ s.publicKeys,
      (id ∈ s.validators ∧ id ∉ mc.remove) ∨ id ∈ mc.add.map (·.id) := by
  unfold KeysExact
  simp only [mem_keys_next, mem_validators_next]
  constructor
  · exact fun h id hid => (h id).mp (Or.inl hid)
  · refine fun h id => ⟨fun hid => hid.elim (h id) Or.inr, ?_⟩
    exact fun hid => hid.imp_left fun hold => hkeys id hold.1

end ValidatorSet

theorem Derived.spec {k : ℕ} (h : Derived k s) :
    s.validators.Pairwise (· ≤ ·) ∧ s.validators.Nodup ∧ s.epoch = u64 k ∧
      ∀ id ∈ s.validators, id ∈ s.publicKeys := by
  induction h with
  | genesis hids hkeys =>
    refine ⟨ValidatorSet.sortStrings_sorted _, (List.perm_insertionSort _ _).nodup_iff.mpr hids, rfl,
      fun id hid => (hkeys id).mpr ((List.mem_insertionSort _).mp hid)⟩
  | apply _ happly ih =>
    obtain ⟨hadmits, rfl⟩ := ValidatorSet.apply_eq_some_iff.mp happly
    refine ⟨ValidatorSet.sortStrings_sorted _, (ValidatorSet.wellFormed_of_apply happly).nodup, ?_,
      fun id hid => ?_⟩
    · change u64 (_ + 1) = u64 (_ + 1)
      rw [ih.2.2.1, u64, u64, u64, Nat.mod_add_mod]
    · rw [ValidatorSet.mem_keys_next]
      exact (ValidatorSet.mem_validators_next.mp hid).imp_left fun hold => ih.2.2.2 id hold.1

/-- **Derived sets.**  In every derived set the ids are sorted and distinct, the binary search is
membership, the epoch counts the changes and every member has a key; a change does the same in
whatever order its entries stand.  The keys are those of the members and no others after a change
exactly when every id that had a key stays or is added. -/
theorem derived_sets_iff {k : ℕ} {s : ValidatorSet} (h : Derived k s) :
    (s.validators.Pairwise (· ≤ ·) ∧ s.validators.Nodup ∧
      (∀ id, s.has id = true ↔ id ∈ s.validators) ∧ s.epoch = u64 k ∧
      (∀ id ∈ s.validators, id ∈ s.publicKeys) ∧
      ∀ mc mc' : MembershipChange, mc.add.Perm mc'.add → mc.remove.Perm mc'.remove →
        Option.Rel ValidatorSet.Same (s.apply mc) (s.apply mc')) ∧
    ∀ mc s', s.apply mc = some s' → (s'.KeysExact ↔ ∀ id ∈ s.publicKeys,
      (id ∈ s.validators ∧ id ∉ mc.remove) ∨ id ∈ mc.add.map (·.id)) := by
  obtain ⟨hsorted, hnodup, hepoch, hkeys⟩ := h.spec
  refine ⟨⟨hsorted, hnodup, fun id => ?_, hepoch, hkeys, fun _ _ => s.apply_perm⟩, ?_⟩
  · rw [ValidatorSet.has, beq_iff_eq, searchSorted_iff hsorted]
  · rintro mc s' happly
    obtain ⟨-, rfl⟩ := ValidatorSet.apply_eq_some_iff.mp happly
    exact ValidatorSet.keysExact_next_iff hkeys

def keyedFour : ValidatorSet :=
  newValidatorSet 0 (sortStrings ["a", "b", "c", "d"])
    (["a", "b", "c", "d"].foldl (fun k id => k.insert id (List.replicate 32 7)) ∅)

theorem derived_keyedFour : Derived 0 keyedFour := by
  refine .genesis (by decide) fun id => ?_
  simp only [List.foldl_cons, List.foldl_nil, AList.mem_insert, AList.notMem_empty, List.mem_cons,
    List.not_mem_nil]
  tauto

/-- `d` gets a new key. -/
def rekeyD : MembershipChange := { add := [⟨"d", List.replicate 32 0⟩], remove := ["d"] }

theorem derived_sets_four : keyedFour.apply rekeyD = some (keyedFour.next rekeyD) ∧
    (keyedFour.next rekeyD).KeysExact := by
  have happly : keyedFour.apply rekeyD = some (keyedFour.next rekeyD) := by decide +kernel
  refine ⟨happly, ((derived_sets_iff derived_keyedFour).2 _ _ happly).mpr ?_⟩
  decide +kernel

/-- `d` leaves. -/
def removeD : MembershipChange := { add := [], remove := ["d"] }

/-- **After the removal** `d` is no validator any more, and its key is still in the set. -/
theorem derived_sets_fail : Derived 1 (keyedFour.next removeD) ∧
    "d" ∉ (keyedFour.next removeD).validators ∧
    (keyedFour.next removeD).publicKeys.lookup "d" = some (List.replicate 32 7) ∧
    ¬ (keyedFour.next removeD).KeysExact := by
  have happly : keyedFour.apply removeD = some (keyedFour.next removeD) := by decide +kernel
  have hgone : "d" ∉ (keyedFour.next removeD).validators := by decide +kernel
  refine ⟨.apply derived_keyedFour happly, hgone, by decide +kernel, fun h => ?_⟩
  exact hgone ((h "d").mp (by decide +kernel))

end Cachey.HotStuff
