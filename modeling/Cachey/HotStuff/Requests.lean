/-
# What a replica asks its peers for

A block that was ASKED FOR enters the tree on weaker terms than a proposal: `HandleBlock` and
`HandleBlockBatch` do not look at the leader's signature.  So it matters who can make a replica
ask.  A request leaves a mark in `fetches` or `syncReqs`; a fetched block whose parent is missing
waits in `pendingBlocks`.

`asking` and `parking` say what a call may add to these, read off the state it starts in, and
`handle_booked` that it adds nothing else, for ANY state and ANY message.
-/
import Cachey.HotStuff.Calls

namespace Cachey.HotStuff

namespace Replica

/-- The blocks that wait for their parents. -/
def waiting (n : Replica) : List Block := n.pendingBlocks.values.flatten

/-- The blocks a call may ask for. -/
def asking (E : Env) (C : Ctx) (inp : Input) (n : Replica) : List BlockID :=
  match inp with
  | .deliver (.proposal p) => if n.asks C p then [p.block.parent] else []
  | .deliver (.blockBatch bb) => if (n.answers E C.now bb).isSome then [bb.target] else []
  | .requestBlock _ id => [id]
  | inp => ((n.gathering E inp).map fun a => (a.1.addVC a.2).basing E C a.2.view).getD []

/-- The blocks a call may park. -/
def parking (E : Env) (C : Ctx) (inp : Input) (n : Replica) : List Block :=
  match inp with
  | .deliver (.block bm) => if n.blockAdmitted E C.now bm.block then [bm.block] else []
  | _ => []

end Replica

/-! ## 1. Adding to the books -/

/-- The parked blocks and the outstanding requests are the same. -/
structure SameBooks (n n' : Replica) : Prop where
  pendingBlocks : n'.pendingBlocks = n.pendingBlocks
  fetches : n'.fetches = n.fetches
  syncReqs : n'.syncReqs = n.syncReqs

/-- From `n` to `n'` only requests for `ids` and the blocks `parks` were added to the books. -/
structure Booked (ids : List BlockID) (parks : List Block) (n n' : Replica) : Prop where
  fetches : ∀ id ∈ n'.fetches, id ∈ n.fetches ∨ id ∈ ids
  syncReqs : ∀ r ∈ n'.syncReqs.values, r ∈ n.syncReqs.values ∨ r.target ∈ ids
  waiting : ∀ b ∈ n'.waiting, b ∈ n.waiting ∨ b ∈ parks

section

variable {E : Env} {C : Ctx} {ids : List BlockID} {parks : List Block} {n n' a b c : Replica}

theorem Booked.of_same (h : SameBooks n n') : Booked ids parks n n' where
  fetches := fun id hid => Or.inl (h.fetches ▸ hid)
  syncReqs := fun r hr => Or.inl (h.syncReqs ▸ hr)
  waiting := fun b hb => Or.inl (by
    unfold Replica.waiting at hb ⊢
    rwa [h.pendingBlocks] at hb)

theorem Booked.refl (n : Replica) : Booked ids parks n n := Booked.of_same ⟨rfl, rfl, rfl⟩

theorem Booked.trans (h₁ : Booked ids parks a b) (h₂ : Booked ids parks b c) :
    Booked ids parks a c where
  fetches := fun id hid => (h₂.fetches id hid).elim (h₁.fetches id) Or.inr
  syncReqs := fun r hr => (h₂.syncReqs r hr).elim (h₁.syncReqs r) Or.inr
  waiting := fun b hb => (h₂.waiting b hb).elim (h₁.waiting b) Or.inr

theorem Folding.sameBooks (f : Folding n n') : SameBooks n n' :=
  ⟨f.pendingBlocks, f.fetches, f.syncReqs⟩

theorem mem_waiting {b : Block} :
    b ∈ n.waiting ↔ ∃ id l, n.pendingBlocks.lookup id = some l ∧ b ∈ l := by
  unfold Replica.waiting
  simp only [List.mem_flatten, GoMap.mem_values_iff]
  constructor
  · rintro ⟨l, ⟨id, hl⟩, hb⟩
    exact ⟨id, l, hl, hb⟩
  · rintro ⟨id, l, hl, hb⟩
    exact ⟨l, ⟨id, hl⟩, hb⟩

theorem parked_iff {Q : Block → Prop} : Parked (fun _ => Q) n ↔ ∀ b ∈ n.waiting, Q b := by
  simp only [mem_waiting]
  constructor
  · rintro h b ⟨id, l, hl, hb⟩
    exact h id l hl b hb
  · intro h id l hl b hb
    exact h b ⟨id, l, hl, hb⟩

theorem lookup_prune {K V : Type} [DecidableEq K] {dead : V → Bool} {m : GoMap K V} {k : K} {v : V}
    (h : (Replica.prune dead m).lookup k = some v) : m.lookup k = some v := by
  suffices ∀ (l : List (Sigma fun _ : K => V)) (acc : GoMap K V),
      (l.foldl (fun acc e => if dead e.2 then acc.erase e.1 else acc) acc).lookup k = some v →
        acc.lookup k = some v from this _ _ h
  intro l
  induction l with
  | nil => exact fun _ h => h
  | cons e l ih =>
    intro acc h
    have h := ih _ h
    dsimp only at h
    split at h
    · rw [GoMap.lookup_erase_of] at h
      split at h
      · cases h
      · exact h
    · exact h

theorem Booked.markFetchLocked (now : ℕ) {id : BlockID} (hid : id ∈ ids) (n : Replica) :
    Booked ids parks n (n.markFetchLocked now id) where
  fetches := by
    intro x hx
    rcases (AList.mem_insert _).mp hx with rfl | hx
    · exact Or.inr hid
    · left
      split at hx
      · obtain ⟨ts, hts⟩ := GoMap.mem_iff_lookup.mp hx
        exact GoMap.mem_iff_lookup.mpr ⟨ts, lookup_prune hts⟩
      · exact hx
  syncReqs := fun _ h => Or.inl h
  waiting := fun _ h => Or.inl h

theorem Booked.markSyncLocked (now : ℕ) (anchor : BlockID) {target : BlockID}
    (ht : target ∈ ids) (peer : String) (n : Replica) :
    Booked ids parks n (n.markSyncLocked now anchor target peer).1 where
  fetches := fun _ h => Or.inl h
  syncReqs := by
    intro r hr
    obtain ⟨k, hk⟩ := GoMap.mem_values_iff.mp hr
    unfold Replica.markSyncLocked at hk
    rw [GoMap.lookup_insert_of] at hk
    split at hk
    · obtain rfl := Option.some.inj hk
      exact Or.inr ht
    · left
      split at hk
      · exact GoMap.mem_values_of_lookup (lookup_prune hk)
      · exact GoMap.mem_values_of_lookup hk
  waiting := fun _ h => Or.inl h

/-! ## 2. Inserting blocks -/

theorem SameBooks.completeBaseLocked (id : BlockID) (n : Replica) :
    SameBooks n (n.completeBaseLocked E id) := by
  exact completeBaseLocked_keeps (P := SameBooks n) ⟨rfl, rfl, rfl⟩ ⟨rfl, rfl, rfl⟩
    fun _ _ _ _ => ⟨rfl, rfl, rfl⟩

theorem SameBooks.trans (h₁ : SameBooks a b) (h₂ : SameBooks b c) : SameBooks a c :=
  ⟨h₂.pendingBlocks.trans h₁.pendingBlocks, h₂.fetches.trans h₁.fetches,
    h₂.syncReqs.trans h₁.syncReqs⟩

theorem Booked.insertBlock (cur : Block) (n : Replica) :
    Booked ids parks n (n.insertBlock E cur) ∧
      (n.insertBlock E cur).pendingBlocks = n.pendingBlocks := by
  -- the fetch of the block is settled
  have h₀ : Booked ids parks n { n with fetches := n.fetches.erase cur.id } :=
    ⟨fun id hid => Or.inl (AList.mem_erase.mp hid).2, fun _ h => Or.inl h, fun _ h => Or.inl h⟩
  have hrest : SameBooks { n with fetches := n.fetches.erase cur.id } (n.insertBlock E cur) := by
    refine SameBooks.trans ?_ (SameBooks.completeBaseLocked cur.id _)
    obtain ⟨w, o, hrec⟩ := persistRecordLocked_eq (.block cur)
      { n with blocks := n.blocks.insert cur.id cur, fetches := n.fetches.erase cur.id }
    rw [hrec]
    split
    · split <;> exact ⟨rfl, rfl, rfl⟩
    · refine SameBooks.trans ?_ (Folding.onNewQCLocked (E := E) _ _).sameBooks
      split <;> exact ⟨rfl, rfl, rfl⟩
  exact ⟨h₀.trans (Booked.of_same hrest), hrest.pendingBlocks⟩

/-- One turn of the worklist takes parked blocks out, and puts none back that was not there. -/
theorem Booked.addBlockTurn (cur : Block) (n : Replica) :
    Booked ids parks n (n.addBlockTurn E cur).1 := by
  obtain ⟨(h : Booked ids parks n _), hpb⟩ := Booked.insertBlock (E := E) cur n
  rcases addBlockTurn_cases (E := E) (Q := fun _ b => b ∈ n.waiting) (fun _ _ hb => hb) cur n
    (fun _ _ id l hl b hb => mem_waiting.mpr ⟨id, l, hpb ▸ hl, hb⟩) with
    ⟨heq, _⟩ | ⟨_, _, pb, heq, hpark, _⟩
  · rw [heq]
    exact Booked.refl n
  · rw [heq]
    exact ⟨h.fetches, h.syncReqs, fun b hb => Or.inl (parked_iff.mp hpark b hb)⟩

/-! ## 3. Calls that book nothing -/

theorem SameBooks.enterViewLockedEpoch (view epoch : ℕ) (n : Replica) :
    SameBooks n (n.enterViewLockedEpoch view epoch) := by
  obtain ⟨v, l, a, k, h⟩ := enterViewLockedEpoch_eq view epoch n
  rw [h]
  exact ⟨rfl, rfl, rfl⟩

theorem SameBooks.castVote (b : Block) (n : Replica) : SameBooks n (n.castVote E b).1 := by
  rcases castVote_eq (E := E) b n with h | ⟨_, w, o, h⟩
  · rw [h]
    exact ⟨rfl, rfl, rfl⟩
  · rw [h]
    exact ⟨rfl, rfl, rfl⟩

theorem SameBooks.voteForBlockLocked (v : Vote) (n : Replica) :
    SameBooks n (n.voteForBlockLocked E v) := by
  refine voteForBlockLocked_keeps (P := SameBooks n) ⟨rfl, rfl, rfl⟩
    (fun _ _ _ _ _ => ⟨rfl, rfl, rfl⟩) fun _ _ _ _ _ _ => ?_
  refine SameBooks.trans ?_ (Folding.onNewQCLocked (E := E) _ _).sameBooks
  exact ⟨rfl, rfl, rfl⟩

/-! ## 4. Calls that may -/

theorem Booked.tolerates (ids : List BlockID) (parks : List Block) (n₀ : Replica) :
    Tolerates ids (Booked ids parks n₀) where
  note := by
    intro n m hn hm _
    refine hn.trans (Booked.of_same ?_)
    rw [hm]
    exact ⟨rfl, rfl, rfl⟩
  fetch := fun now _ hid hn => hn.trans (Booked.markFetchLocked now hid _)
  sync := fun now anchor _ peer ht hn => hn.trans (Booked.markSyncLocked now anchor ht peer _)
  answered := by
    intro n k hn
    refine hn.trans ⟨fun _ h => Or.inl h, fun r hr => Or.inl ?_, fun _ h => Or.inl h⟩
    obtain ⟨j, hj⟩ := GoMap.mem_values_iff.mp hr
    rw [GoMap.lookup_erase_of] at hj
    split at hj
    · cases hj
    · exact GoMap.mem_values_of_lookup hj
  activate := fun _ hn => hn.trans (Booked.of_same ⟨rfl, rfl, rfl⟩)
  send := fun _ _ hn => hn.trans (Booked.of_same ⟨rfl, rfl, rfl⟩)
  signed := fun _ hn => hn.trans (Booked.of_same ⟨rfl, rfl, rfl⟩)

theorem Booked.turn {n₀ : Replica} (m : Replica) (b : Block) (hm : Booked ids parks n₀ m) :
    Booked ids parks n₀ (m.addBlockTurn E b).1 :=
  hm.trans (Booked.addBlockTurn b m)

theorem countVC_booked {n₀ : Replica} {vc : ViewChange} (hn : Booked ids parks n₀ n)
    (hids : ∀ id ∈ (n.addVC vc).basing E C vc.view, id ∈ ids) :
    Booked ids parks n₀ (((n.addVC vc).maybeActivateLocked E C vc.view).1.sendFetch
      ((n.addVC vc).maybeActivateLocked E C vc.view).2) :=
  (Booked.tolerates ids parks n₀).countVC vc hn (hn.trans (Booked.of_same ⟨rfl, rfl, rfl⟩)) fun h =>
    (Booked.tolerates ids parks n₀).maybeActivateLocked h
      (fun _ _ _ _ => h.trans (Booked.of_same (SameBooks.enterViewLockedEpoch _ _ _))) hids
      (fun _ hm => hm.trans (Booked.of_same ⟨rfl, rfl, rfl⟩))
      fun _ hm _ _ _ _ => hm.trans (Booked.of_same ⟨rfl, rfl, rfl⟩)

theorem propose_booked (cmd : Bytes) (n : Replica) :
    Booked ids parks n (n.propose E C cmd).1 := by
  unfold Replica.propose
  split
  · exact Booked.refl n
  split
  · exact Booked.refl n
  obtain ⟨w, o, hprop⟩ := proposed_eq (E := E) cmd n
  obtain ⟨e, p, _, _, hloc, _⟩ := proposeLocked_eq (E := E) (C := C) cmd n
  have hvote := SameBooks.voteForBlockLocked (E := E) (n.ownVote E cmd) (n.proposed E cmd)
  rw [hprop] at hvote
  rw [hloc, hprop]
  exact (Booked.tolerates ids parks n).sendAll _
    (Booked.of_same ⟨hvote.pendingBlocks, hvote.fetches, hvote.syncReqs⟩)

theorem startViewChange_booked (n : Replica) :
    Booked (n.asking E C .startViewChange) parks n (n.startViewChange E C) := by
  refine (Booked.tolerates _ parks n).startViewChange (Booked.refl n)
    (fun _ => Booked.of_same (SameBooks.enterViewLockedEpoch _ _ n))
    fun m vc han hl _ _ hm => countVC_booked hm fun id hid => ?_
  have hgather : n.gathering E .startViewChange = some (m, vc) :=
    Option.filter_eq_some_iff.mpr ⟨han, by simpa using hl⟩
  simpa [Replica.asking, hgather] using hid

theorem handleProposal_booked (p : Proposal) (n : Replica) :
    Booked (n.asking E C (.deliver (.proposal p))) parks n (n.handleProposal E C p).1 := by
  refine (Booked.tolerates _ parks n).handleProposal (Booked.refl n)
    (fun hasks => by simp [Replica.asking, hasks]) fun _ => ?_
  exact acceptProposal_keeps Booked.turn _
    (fun m hm => hm.trans (Booked.of_same (SameBooks.castVote _ m)))
    (Booked.of_same (SameBooks.enterViewLockedEpoch _ _ n))

theorem handleBlock_booked (bm : BlockMsg) (n : Replica) :
    Booked ids (n.parking E C (.deliver (.block bm))) n (n.handleBlock E C bm).1 := by
  refine handleBlock_keeps (Booked.refl n) (fun hadm => ?_) fun _ =>
    addBlockLocked_keeps Booked.turn bm.block (Booked.refl n)
  have hpark : n.parking E C (.deliver (.block bm)) = [bm.block] := by
    simp [Replica.parking, hadm]
  refine ⟨fun _ h => Or.inl h, fun _ h => Or.inl h, parked_iff.mp ?_⟩
  rw [hpark]
  refine Parked.push (P := fun _ b => b ∈ n.waiting ∨ b ∈ [bm.block]) ?_ (Or.inr (by simp))
  exact fun id l hl b hb => Or.inl (mem_waiting.mpr ⟨id, l, hl, hb⟩)

/-- **What a call books**: requests for what it asks for, and the block it parks. -/
theorem handle_booked (inp : Input) (n : Replica) :
    Booked (n.asking E C inp) (n.parking E C inp) n (n.handle E C inp) := by
  have htol := Booked.tolerates (n.asking E C inp) (n.parking E C inp) n
  cases inp with
  | propose cmd => exact propose_booked cmd n
  | startViewChange => exact startViewChange_booked n
  | requestBlock peer id =>
    exact htol.requestBlock peer (by simp [Replica.asking]) (Booked.refl n)
  | deliver m =>
    cases m with
    | proposal p => exact handleProposal_booked p n
    | vote v =>
      change Booked _ _ n (n.handleVote E v)
      unfold Replica.handleVote
      split
      · exact Booked.of_same (SameBooks.voteForBlockLocked v n)
      · exact Booked.refl n
    | viewChange vc =>
      refine htol.handleViewChange (Booked.refl n) fun hc =>
        countVC_booked (Booked.refl n) fun id hid => ?_
      simpa [Replica.asking, Replica.gathering, hc] using hid
    | fetch f => exact htol.handleFetch f (Booked.refl n)
    | block bm => exact handleBlock_booked bm n
    | getBlocks g => exact htol.handleGetBlocks g (Booked.refl n)
    | blockBatch bb =>
      exact htol.handleBlockBatch (Booked.refl n) (fun h => by simp [Replica.asking, h]) fun _ =>
        foldl_insertBatchBlock_keeps Booked.turn _ (n, []) (Booked.refl n)

end

end Cachey.HotStuff
