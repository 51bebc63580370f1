/-
# A batch, all or nothing

`insertBatchLocked` (`sync.go`) promises that nothing is inserted unless the entire batch is sound.
It goes through the batch twice.  The first pass checks ids, links, heights and certificates.  The
EPOCH a block claims is compared with the certificate of the block above it, so the last block's is
not compared with anything; and none of them is compared with the ancestry.  That is done by
`addBlockLocked` in the second pass, block by block, when the blocks below are in the tree already
and may have been locked, committed and executed.

When does the second pass take every block?  The epoch gate reads the tree, and the tree changes
under it: each block of the batch extends the branch, releases blocks that waited for it, and may
commit.  But an id spells out its own ancestry, so what the gate will find when a block's turn comes
can be read off the state BEFORE the batch (`Replica.configOver`): the ids down to the block the
batch stands on, and from there what the tree holds.  Two things have to be allowed for.  A block
may go in under another claim than the batch's, if one with its id waits for its parent
(`Replica.forms`).  And a commit on the way writes validator sets: `OriginSafe` says that it cannot
write the one the derivations start from.

* §1  What one block of a batch does: it is refused, and nothing happens, or it goes in.
* §2  The configuration of a block, read off the state before the batch.
* §3  The gate of a tree that holds part of the batch asks for exactly that (`Filled.gate`).
* §4  The worklist: a block that goes in brings what waited for it (`Filled.loop`).
* §5  `batch_all_or_nothing`: exactly when the first pass refuses the batch, no block of it is taken,
      or every block of it is received.
* §6  A batch of five blocks of which FOUR go in.
-/
import Cachey.HotStuff.Epochs
import Cachey.HotStuff.KnownSets
import Cachey.HotStuff.Lineage
import Cachey.HotStuff.Requests

namespace Cachey.HotStuff

/-! ## 1. One block

A block that is known, or that the gate refuses, leaves the state exactly as it was.  So if anything
happens at all, it begins in the state before the batch, with a block that goes in there. -/

namespace Replica

/-- The batch is anchored in the tree and sound from its anchor up. -/
def soundBatch (E : Env) (bs : List Block) (n : Replica) : Bool :=
  match bs with
  | [] => false
  | lowest :: _ =>
    match n.blocks.lookup lowest.parent with
    | none => false
    | some anchor => batchSound E n none anchor.height anchor.epoch bs

/-- The block is known or does not pass the epoch gate. -/
def passesOver (E : Env) (b : Block) (n : Replica) : Bool := b.id ∈ n.blocks || ! n.epochGate E b

end Replica

/-- Tree, pointers, epoch and executed sequence are the same. -/
structure Unmoved (n n' : Replica) : Prop where
  blocks : n'.blocks = n.blocks
  head : n'.head = n.head
  qcHigh : n'.qcHigh = n.qcHigh
  bLock : n'.bLock = n.bLock
  bExec : n'.bExec = n.bExec
  epoch : n'.epoch = n.epoch
  executed : appliedIn n'.out = appliedIn n.out

theorem Unmoved.refl (n : Replica) : Unmoved n n := ⟨rfl, rfl, rfl, rfl, rfl, rfl, rfl⟩

/-- Every block of the batch is in the tree, or nothing has happened. -/
def Replica.AllOrNothing (E : Env) (bb : BlockBatch) (n : Replica) : Prop :=
  (∀ b ∈ bb.blocks, b.id ∈ (n.insertBatchLocked E bb).1.blocks) ∨
    Unmoved n (n.insertBatchLocked E bb).1

section Blocks

variable {E : Env} {n : Replica} {b : Block} {id : BlockID} {bb : BlockBatch}
  {acc : Replica × List Proposal}

theorem insertBatchLocked_eq : n.insertBatchLocked E bb =
    if n.soundBatch E bb.blocks then bb.blocks.foldl (Replica.insertBatchBlock E) (n, [])
    else (n, []) := by
  unfold Replica.soundBatch Replica.insertBatchLocked
  cases bb.blocks with
  | nil => rfl
  | cons lowest rest =>
    rcases Option.eq_none_or_eq_some (n.blocks.lookup lowest.parent) with hnone | ⟨anchor, hsome⟩
    · simp [hnone]
    · simp only [hsome, ite_not]

theorem insertBlock_blocks (b : Block) (n : Replica) :
    (n.insertBlock E b).blocks = n.blocks.insert b.id b := by
  have hbase : ∀ m : Replica, (m.completeBaseLocked E b.id).blocks = m.blocks := fun m =>
    completeBaseLocked_keeps (P := fun x => x.blocks = m.blocks) rfl rfl fun _ _ _ _ => rfl
  obtain ⟨w, o, hrec⟩ := persistRecordLocked_eq (.block b)
    { n with blocks := n.blocks.insert b.id b, fetches := n.fetches.erase b.id }
  unfold Replica.insertBlock
  rw [hbase, hrec]
  cases b.justify with
  | none => dsimp only; split <;> rfl
  | some qc =>
    rw [(Folding.onNewQCLocked (E := E) qc _).blocks]
    split <;> rfl

theorem passesOver_iff : n.passesOver E b = true ↔ b.id ∈ n.blocks ∨ n.epochGate E b = false := by
  simp [Replica.passesOver]

theorem addBlockTurn_of_passesOver (h : n.passesOver E b = true) :
    n.addBlockTurn E b = (n, [], []) := by
  unfold Replica.addBlockTurn
  by_cases hin : b.id ∈ n.blocks
  · rw [if_pos hin]
  · rw [if_neg hin, if_pos (by simp [(passesOver_iff.mp h).resolve_left hin])]

theorem addBlockTurn_of_not_passesOver (h : n.passesOver E b = false) :
    (n.addBlockTurn E b).1.blocks = n.blocks.insert b.id b ∧
      ∀ x ∈ (n.addBlockTurn E b).2.2, x ∈ n.waiting := by
  obtain ⟨hin, hgate⟩ : b.id ∉ n.blocks ∧ n.epochGate E b = true := by
    simpa [Replica.passesOver] using h
  have hpb : (n.insertBlock E b).pendingBlocks = n.pendingBlocks :=
    (show Booked [] [] n _ ∧ _ from Booked.insertBlock b n).2
  rcases addBlockTurn_cases (E := E) (Q := fun _ x => x ∈ n.waiting) (fun _ _ hx => hx) b n
    (fun _ _ id l hl x hx => mem_waiting.mpr ⟨id, l, hpb ▸ hl, hx⟩) with
    ⟨_, hout⟩ | ⟨_, _, pb, heq, _, hwork⟩
  · exact absurd hgate (hout.resolve_left hin)
  · rw [heq]
    exact ⟨insertBlock_blocks b n, fun x hx => (hwork x hx).1⟩

theorem addBlockTurn_grows (n : Replica) (b : Block) (hid : id ∈ n.blocks) :
    id ∈ (n.addBlockTurn E b).1.blocks := by
  cases h : n.passesOver E b with
  | true =>
    rw [addBlockTurn_of_passesOver h]
    exact hid
  | false =>
    rw [(addBlockTurn_of_not_passesOver h).1]
    exact (AList.mem_insert _).mpr (Or.inr hid)

theorem insertBatchBlock_of_passesOver (acc : Replica × List Proposal)
    (h : acc.1.passesOver E b = true) : (Replica.insertBatchBlock E acc b).1 = acc.1 := by
  unfold Replica.insertBatchBlock
  split
  · rfl
  · unfold Replica.addBlockLocked Replica.addBlockLoop
    rw [addBlockTurn_of_passesOver h]
    cases acc.1.parkedCount <;> rfl

theorem mem_insertBatchBlock (h : acc.1.passesOver E b = false) :
    b.id ∈ (Replica.insertBatchBlock E acc b).1.blocks := by
  unfold Replica.insertBatchBlock
  split
  next hin => exact hin
  · unfold Replica.addBlockLocked Replica.addBlockLoop
    refine addBlockLoop_keeps (P := fun m => b.id ∈ m.blocks) addBlockTurn_grows _ _ _ _ ?_
    rw [(addBlockTurn_of_not_passesOver h).1]
    exact (AList.mem_insert _).mpr (Or.inl rfl)

/-- **Nothing happens** when every block is passed over. -/
theorem foldl_insertBatchBlock_idle : ∀ (bs : List Block) (acc : Replica × List Proposal),
    (∀ b ∈ bs, acc.1.passesOver E b = true) →
    (bs.foldl (Replica.insertBatchBlock E) acc).1 = acc.1
  | [], _, _ => rfl
  | b :: bs, acc, h => by
    have hone := insertBatchBlock_of_passesOver acc (h b List.mem_cons_self)
    rw [List.foldl_cons, foldl_insertBatchBlock_idle bs _ fun x hx => ?_, hone]
    rw [hone]
    exact h x (List.mem_cons_of_mem _ hx)

/-- **Something happens** when one is not: the first such block is met in the state before. -/
theorem exists_new_of_taken : ∀ (bs : List Block) (acc : Replica × List Proposal),
    (∃ b ∈ bs, acc.1.passesOver E b = false) →
    ∃ id, id ∉ acc.1.blocks ∧ id ∈ (bs.foldl (Replica.insertBatchBlock E) acc).1.blocks
  | [], _, h => by
    obtain ⟨b, hb, -⟩ := h
    cases hb
  | b :: bs, acc, h => by
    rw [List.foldl_cons]
    cases hb : acc.1.passesOver E b with
    | true =>
      have hone := insertBatchBlock_of_passesOver acc hb
      obtain ⟨x, hx, hpass⟩ := h
      have hrest : ∃ x ∈ bs, (Replica.insertBatchBlock E acc b).1.passesOver E x = false := by
        rcases List.mem_cons.mp hx with rfl | hx
        · rw [hb] at hpass
          cases hpass
        · exact ⟨x, hx, by rw [hone]; exact hpass⟩
      obtain ⟨id, hid, hin⟩ := exists_new_of_taken bs _ hrest
      rw [hone] at hid
      exact ⟨id, hid, hin⟩
    | false =>
      refine ⟨b.id, fun hin => ?_, foldl_insertBatchBlock_keeps (P := fun m => b.id ∈ m.blocks)
        addBlockTurn_grows bs _ (mem_insertBatchBlock hb)⟩
      rw [passesOver_iff.mpr (Or.inl hin)] at hb
      cases hb

end Blocks

/-! ## 2. The configuration of a block, before the batch -/

theorem takeWhile_congr_mem {α : Type} {p q : α → Bool} : ∀ {l : List α},
    (∀ x ∈ l, p x = q x) → l.takeWhile p = l.takeWhile q
  | [], _ => rfl
  | x :: l, h => by
    rw [List.takeWhile_cons, List.takeWhile_cons, h x List.mem_cons_self,
      takeWhile_congr_mem fun y hy => h y (List.mem_cons_of_mem _ hy)]

/-- The block the batch stands on: the parent of its lowest block. -/
def BlockBatch.foot (bb : BlockBatch) : BlockID := (bb.blocks.head?.map Block.parent).getD noID

namespace Replica

/-- The ids from `id` down to `foot`, and on from there as far as the tree goes; the GC base ends
the list. -/
def lineage (n : Replica) (foot id : BlockID) : List BlockID :=
  (id.since foot ++ foot.ancestors.takeWhile (· ∈ n.blocks)).takeWhile (· ≠ n.gcBase)

/-- **The configuration of a block over `foot`**: what the derivation will find once everything
between the block and `foot` is in the tree. -/
def configOver (E : Env) (n : Replica) (foot : BlockID) (b : Block) : Nat × Option ValidatorSet :=
  -- at or below the base the derivation does not look at the ancestry
  if b.height ≤ n.gcBase.height then (n.origin.epoch, n.origin.set)
  else n.origin.carry E ((n.lineage foot b.id).drop 3)

/-- The block claims that configuration, and it has a set.  The gate of `addBlockLocked` asks for no
more; what it derives is another matter. -/
def Claims (E : Env) (n : Replica) (foot : BlockID) (b : Block) : Prop :=
  b.epoch = (n.configOver E foot b).1 ∧ (n.configOver E foot b).2.isSome = true

/-- The blocks that can enter the tree for `b`: itself, and those with its id that are released when
its parent goes in. -/
def forms (n : Replica) (b : Block) : List Block :=
  b :: if b.parent ∈ n.blocks then [] else n.waiting.filter fun c => c.id = b.id

/-- **The block is received**: it is known, or a form of it claims its configuration. -/
def Received (E : Env) (n : Replica) (foot : BlockID) (b : Block) : Prop :=
  b.id ∈ n.blocks ∨ ∃ c ∈ n.forms b, n.Claims E foot c

instance (E : Env) (n : Replica) (foot : BlockID) (b : Block) : Decidable (n.Claims E foot b) :=
  inferInstanceAs (Decidable (_ ∧ _))

instance (E : Env) (n : Replica) (foot : BlockID) (b : Block) : Decidable (n.Received E foot b) :=
  inferInstanceAs (Decidable (_ ∨ _))

/-- The blocks that can be in the tree when the call ends: those that are, and what the batch brings or
releases under the configuration it belongs to. -/
def sources (E : Env) (n : Replica) (bb : BlockBatch) : List Block :=
  n.blocks.values ++ (bb.blocks ++ n.waiting).filter fun x => n.Claims E bb.foot x

/-- **No commit of the call can write the set the derivations start from**: on the branch of the
batch no membership block claims the epoch before it.  Above the GC base of a tree with derived
epochs none does, since epochs only rise. -/
def OriginSafe (E : Env) (n : Replica) (bb : BlockBatch) : Prop :=
  ∀ x ∈ n.sources E bb, isMembershipBlock E x = true →
    x.id ∈ bb.foot.ancestors ∨ bb.foot ∈ x.id.ancestors → u64 (x.epoch + 1) ≠ n.origin.epoch

instance (E : Env) (n : Replica) (bb : BlockBatch) : Decidable (n.OriginSafe E bb) :=
  inferInstanceAs (Decidable (∀ _ ∈ _, _ → _))

end Replica

/-! ## 3. A tree that holds part of the batch

`Filled` is all the gate depends on: where derivations start and with which set, that no block was
lost, and that whatever is new claims the configuration it was given beforehand. -/

section Filling

variable {E : Env} {n m m' : Replica} {bb : BlockBatch} {b c : Block}

/-- A block that may be inserted during the call: it comes from the batch or is released, and
everything below it down to the foot is in the tree. -/
structure Entrant (n : Replica) (bb : BlockBatch) (m : Replica) (c : Block) : Prop where
  form : c ∈ bb.blocks ∨ c ∈ n.waiting ∧ c.parent ∉ n.blocks
  sound : c.Sound
  up : bb.foot ∈ c.parent.ancestors
  stands : ∀ x ∈ c.parent.since bb.foot, x ∈ m.blocks

/-- **The states between the blocks of a batch** that started in `n`. -/
structure Filled (E : Env) (n : Replica) (bb : BlockBatch) (m : Replica) : Prop where
  planted : Planted m
  indexed : Indexed m.sets
  gcBase : m.gcBase = n.gcBase
  set : m.sets.lookup n.origin.epoch = n.sets.lookup n.origin.epoch
  known : ∀ id b, n.blocks.lookup id = some b → m.blocks.lookup id = some b
  /-- what is new entered under its own configuration -/
  fresh : ∀ id c, m.blocks.lookup id = some c → id ∉ n.blocks →
    Entrant n bb m c ∧ n.Claims E bb.foot c
  waits : ∀ c ∈ m.waiting, c ∈ n.waiting
  kept : ∀ c ∈ n.waiting, c.parent ∉ m.blocks → c ∈ m.waiting

theorem Entrant.mono (h : Entrant n bb m c) (hm : ∀ id ∈ m.blocks, id ∈ m'.blocks) :
    Entrant n bb m' c :=
  ⟨h.form, h.sound, h.up, fun x hx => hm x (h.stands x hx)⟩

theorem Entrant.up_id (h : Entrant n bb m c) : bb.foot ∈ c.id.ancestors := by
  rw [h.sound.ancestors]
  exact List.mem_cons_of_mem _ h.up

theorem Entrant.depth (h : Entrant n bb m c) : bb.foot.depth < c.id.depth := by
  have := BlockID.depth_le_of_mem_ancestors h.up
  rw [h.sound.addressed]
  exact Nat.lt_succ_of_le this

theorem Entrant.since_id (h : Entrant n bb m c) :
    c.id.since bb.foot = c.id :: c.parent.since bb.foot := by
  have hne : c.id ≠ bb.foot := fun heq => absurd h.depth (by rw [heq]; exact lt_irrefl _)
  rw [BlockID.since_of_ne h.up_id hne, h.sound.id_parent]

theorem Entrant.source (h : Entrant n bb m c) (hc : n.Claims E bb.foot c) : c ∈ n.sources E bb := by
  refine List.mem_append_right _ (List.mem_filter.mpr ⟨?_, by simpa using hc⟩)
  rcases h.form with hb | ⟨hw, -⟩
  · exact List.mem_append_left _ hb
  · exact List.mem_append_right _ hw

theorem Entrant.parent_mem (h : Entrant n bb m c) (hfoot : bb.foot ∈ m.blocks) :
    c.parent ∈ m.blocks := by
  by_cases hf : c.parent = bb.foot
  · exact hf ▸ hfoot
  · refine h.stands _ ?_
    rw [BlockID.since_of_ne h.up hf]
    exact List.mem_cons_self

theorem Filled.refl (hp : Planted n) (hidx : Indexed n.sets) : Filled E n bb n where
  planted := hp
  indexed := hidx
  gcBase := rfl
  set := rfl
  known := fun _ _ h => h
  fresh := fun _ c hc hnew => absurd (GoMap.mem_iff_lookup.mpr ⟨c, hc⟩) hnew
  waits := fun _ h => h
  kept := fun _ h _ => h

namespace Filled

theorem grows (h : Filled E n bb m) : ∀ id ∈ n.blocks, id ∈ m.blocks := by
  intro id hid
  obtain ⟨b, hb⟩ := GoMap.mem_iff_lookup.mp hid
  exact GoMap.mem_iff_lookup.mpr ⟨b, h.known id b hb⟩

theorem origin (hp : Planted n) (h : Filled E n bb m) : m.origin = n.origin := by
  obtain ⟨base, hbase⟩ := GoMap.mem_iff_lookup.mp hp.base
  have hset := h.set
  have hn : n.origin = { base := n.gcBase, epoch := base.epoch, set := n.sets.lookup base.epoch } := by
    simp [Replica.origin, hbase]
  rw [hn] at hset ⊢
  unfold Replica.origin
  rw [h.gcBase, h.known _ base hbase]
  exact congrArg (Origin.mk _ _) hset

theorem mem_below (h : Filled E n bb m) {x : BlockID} (hx : x ∈ bb.foot.ancestors) :
    x ∈ m.blocks ↔ x ∈ n.blocks := by
  refine ⟨fun hin => ?_, h.grows x⟩
  by_contra hnew
  obtain ⟨c, hc⟩ := GoMap.mem_iff_lookup.mp hin
  obtain ⟨rfl, -⟩ := h.planted.tree x c hc
  have := (h.fresh _ c hc hnew).1.depth
  have := BlockID.depth_le_of_mem_ancestors hx
  omega

theorem complete (hc : Complete n) (hfoot : bb.foot ∈ n.blocks) (h : Filled E n bb m) :
    Complete m := by
  intro id hid hup hne
  rw [h.gcBase] at hup hne
  by_cases hold : id ∈ n.blocks
  · exact h.grows _ (hc id hold hup hne)
  · obtain ⟨c, hlook⟩ := GoMap.mem_iff_lookup.mp hid
    have he := (h.fresh id c hlook hold).1
    obtain ⟨rfl, -⟩ := h.planted.tree id c hlook
    rw [he.sound.id_parent]
    exact he.parent_mem (h.grows _ hfoot)

theorem path_ids (h : Filled E n bb m) (hc : Entrant n bb m c) :
    ((m.path c).map Block.id).takeWhile (· ≠ m.gcBase) = n.lineage bb.foot c.id := by
  have hwalk := walk_ids h.planted.tree (c.parent.depth + 1) c hc.sound (Nat.lt_succ_self _)
  have hbelow : bb.foot.ancestors.takeWhile (· ∈ m.blocks) =
      bb.foot.ancestors.takeWhile (· ∈ n.blocks) :=
    takeWhile_congr_mem fun x hx => decide_eq_decide.mpr (h.mem_below hx)
  unfold Replica.path Replica.lineage
  rw [hwalk, BlockID.ancestors_since hc.up,
    List.takeWhile_append_of_pos fun x hx => by simpa using hc.stands x hx, hbelow, hc.since_id,
    h.gcBase, List.cons_append]

/-- **The gate asks for the configuration read off before the batch.** -/
theorem gate (hp : Planted n) (h : Filled E n bb m) (hc : Entrant n bb m c) :
    m.epochGate E c = true ↔ n.Claims E bb.foot c := by
  have hconf : m.epochAndSetOfLocked E c = n.configOver E bb.foot c := by
    unfold Replica.configOver
    split
    next hlow =>
      rw [epochAndSetOfLocked_low h.planted (by rw [h.gcBase]; exact hlow), h.origin hp]
    next habove =>
      rw [epochAndSetOfLocked_path h.planted hc.sound (by rw [h.gcBase]; omega), h.origin hp,
        h.path_ids hc]
  unfold Replica.epochGate Replica.Claims
  rw [hconf, Bool.and_eq_true, decide_eq_true_eq]

end Filled

/-- An inserted block folds its certificate: the set of epoch `e` stays unless a block on its branch
writes it. -/
theorem insertBlock_elsewhere (ht : Grown m.blocks) (hidx : Indexed m.sets) (hs : c.Sound) {e : ℕ}
    (hsafe : ∀ x, x = c ∨ x ∈ m.blocks.values → x.id ∈ c.id.ancestors →
      isMembershipBlock E x = true → u64 (x.epoch + 1) ≠ e) :
    (m.insertBlock E c).sets.lookup e = m.sets.lookup e ∧ Indexed (m.insertBlock E c).sets ∧
      (m.insertBlock E c).gcBase = m.gcBase := by
  obtain ⟨qc, hj, hqc⟩ := hs.certifies
  obtain ⟨hblocks, hsets, hbase⟩ : (m.entered c).blocks = m.blocks.insert c.id c ∧
      (m.entered c).sets = m.sets ∧ (m.entered c).gcBase = m.gcBase := by
    obtain ⟨w, o, hrec⟩ := record_eq c { m with fetches := m.fetches.erase c.id }
    unfold Replica.entered
    rw [hrec]
    dsimp only
    split <;> exact ⟨rfl, rfl, rfl⟩
  have hframe : ∀ r : Replica, (r.completeBaseLocked E c.id).sets = r.sets ∧
      (r.completeBaseLocked E c.id).gcBase = r.gcBase := fun r =>
    completeBaseLocked_keeps (P := fun x => x.sets = r.sets ∧ x.gcBase = r.gcBase) ⟨rfl, rfl⟩
      ⟨rfl, rfl⟩ fun _ _ _ _ => ⟨rfl, rfl⟩
  have htree : Grown (m.entered c).blocks := hblocks ▸ ht.insert hs
  rw [insertBlock_eq hj, (hframe _).1, (hframe _).2, ← hsets, ← hbase,
    (Folding.onNewQCLocked (E := E) qc (m.entered c)).gcBase]
  rcases onNewQCLocked_commits (E := E) htree qc with ⟨hkeep, -, -⟩ | ⟨gp, hgp, hgpid, -, -, hact, -⟩
  · rw [hkeep]
    exact ⟨rfl, hsets ▸ hidx, rfl⟩
  · -- the span is part of the inserted block's own branch
    have hspan : ∀ x ∈ (m.entered c).span gp, isMembershipBlock E x = true →
        u64 (x.epoch + 1) ≠ e := by
      intro x hx hmem
      have hx : x ∈ (m.entered c).path gp :=
        (List.takeWhile_sublist _).subset (List.mem_reverse.mp hx)
      have hup : x.id ∈ c.id.ancestors := by
        have h₁ := walk_id_mem_ancestors htree _ gp (htree _ gp hgp).2 x hx
        rw [hgpid, hqc] at h₁
        rw [hs.ancestors]
        exact List.mem_cons_of_mem _ (BlockID.ancestors_trans h₁
          (BlockID.ancestors_trans (BlockID.parent_mem_ancestors _)
            (BlockID.parent_mem_ancestors _)))
      have hin : (m.entered c).blocks.lookup x.id = some x := by
        rcases htree.mem_walk _ gp x hx with rfl | hin
        · exact hgp
        · exact hin
      rw [hblocks, GoMap.lookup_insert_of] at hin
      refine hsafe x ?_ hup hmem
      split at hin
      · exact Or.inl (Option.some.inj hin).symm
      · exact Or.inr (GoMap.mem_values_of_lookup hin)
    obtain ⟨h₁, h₂⟩ := foldl_activation_elsewhere (E := E) (e := e) ((m.entered c).span gp)
      ((m.entered c).sets, (m.entered c).epoch) (hsets ▸ hidx) hspan
    rw [← hact] at h₁ h₂
    exact ⟨h₁, h₂, rfl⟩

/-! ## 4. The worklist -/

theorem foldl_unpark_all : ∀ (l : List Block) (m : Replica) (work : List Block),
    (∀ x ∈ l, x.parent ∈ m.blocks) → l.foldl Replica.unpark (m, work) = (m, work ++ l)
  | [], m, work, _ => by rw [List.append_nil]; rfl
  | x :: l, m, work, h => by
    have hone : Replica.unpark (m, work) x = (m, work ++ [x]) := by
      simp [Replica.unpark, h x List.mem_cons_self]
    rw [List.foldl_cons, hone, foldl_unpark_all l m _ fun y hy => h y (List.mem_cons_of_mem _ hy),
      List.append_assoc]
    rfl

/-- A block that goes in releases everything that is parked under its id. -/
theorem addBlockTurn_taken (hp : ParkedSound m) (h : m.passesOver E c = false) :
    ∃ pr kids, m.addBlockTurn E c = ({ m.insertBlock E c with
      pending := pr, pendingBlocks := m.pendingBlocks.erase c.id }, kids,
      (m.pendingBlocks.lookup c.id).getD []) := by
  obtain ⟨hin, hgate⟩ : c.id ∉ m.blocks ∧ m.epochGate E c = true := by
    simpa [Replica.passesOver] using h
  have hpb : (m.insertBlock E c).pendingBlocks = m.pendingBlocks :=
    (show Booked [] [] m _ ∧ _ from Booked.insertBlock c m).2
  have hall : ∀ x ∈ (m.pendingBlocks.lookup c.id).getD [], x.parent ∈
      (m.insertBlock E c).blocks := by
    intro x hx
    rw [insertBlock_blocks]
    cases hl : m.pendingBlocks.lookup c.id with
    | none => simp [hl] at hx
    | some l =>
      rw [hl] at hx
      exact (AList.mem_insert _).mpr (Or.inl (hp _ l hl x hx).1)
  have hun := foldl_unpark_all ((m.pendingBlocks.lookup c.id).getD [])
    { m.insertBlock E c with
      pending := (m.insertBlock E c).pending.erase c.id
      pendingBlocks := m.pendingBlocks.erase c.id } [] hall
  unfold Replica.addBlockTurn
  rw [if_neg hin, if_neg (not_not.mpr hgate)]
  dsimp only
  rw [hpb, hun]
  exact ⟨_, _, rfl⟩

theorem mem_waiting_iff (hp : ParkedSound m) :
    c ∈ m.waiting ↔ c ∈ (m.pendingBlocks.lookup c.parent).getD [] := by
  rw [mem_waiting]
  constructor
  · rintro ⟨id, l, hl, hc⟩
    obtain ⟨rfl, -⟩ := hp id l hl c hc
    rw [hl]
    exact hc
  · intro hc
    cases hl : m.pendingBlocks.lookup c.parent with
    | none => simp [hl] at hc
    | some l => exact ⟨c.parent, l, hl, by rwa [hl] at hc⟩

/-- Between `m` and `r` the blocks that were released found their place. -/
def Places (E : Env) (n : Replica) (bb : BlockBatch) (m r : Replica) : Prop :=
  ∀ c ∈ n.waiting, c.parent ∉ m.blocks → c.parent ∈ r.blocks → n.Claims E bb.foot c →
    c.id ∈ r.blocks

namespace Filled

theorem source (h : Filled E n bb m) {x : Block} (hx : x ∈ m.blocks.values) :
    x ∈ n.sources E bb := by
  obtain ⟨id, hid⟩ := GoMap.mem_values_iff.mp hx
  by_cases hin : id ∈ n.blocks
  · obtain ⟨b, hb⟩ := GoMap.mem_iff_lookup.mp hin
    obtain rfl := Option.some.inj ((h.known id b hb).symm.trans hid)
    exact List.mem_append_left _ (GoMap.mem_values_of_lookup hb)
  · obtain ⟨he, hclaims⟩ := h.fresh id x hid hin
    exact he.source hclaims

/-- **An entrant goes in**: the state is one between the blocks of the batch still, and what waited
for the entrant is listed. -/
theorem put (hp : Planted n) (hsafe : n.OriginSafe E bb) (h : Filled E n bb m)
    (hc : Entrant n bb m c) (hpass : m.passesOver E c = false) :
    Filled E n bb (m.addBlockTurn E c).1 ∧
      (m.addBlockTurn E c).1.blocks = m.blocks.insert c.id c ∧
      (m.addBlockTurn E c).2.2.length + (m.addBlockTurn E c).1.parkedCount = m.parkedCount ∧
      (∀ x ∈ (m.addBlockTurn E c).2.2, Entrant n bb (m.addBlockTurn E c).1 x) ∧
      ∀ x ∈ n.waiting, x.parent = c.id → x ∈ (m.addBlockTurn E c).2.2 := by
  obtain ⟨hnew, hgate⟩ : c.id ∉ m.blocks ∧ m.epochGate E c = true := by
    simpa [Replica.passesOver] using hpass
  have hclaims := (h.gate hp hc).mp hgate
  obtain ⟨hset, hidx, hbase⟩ := insertBlock_elsewhere (E := E) (e := n.origin.epoch) h.planted.tree
    h.indexed hc.sound fun x hx hup hmem =>
      hsafe x (hx.elim (fun heq => heq ▸ hc.source hclaims) h.source) hmem
        (BlockID.ancestors_comparable hup hc.up_id)
  obtain ⟨pr, kids, heq⟩ := addBlockTurn_taken h.planted.parked hpass
  have hblocks := insertBlock_blocks (E := E) c m
  rw [heq]
  generalize m.insertBlock E c = r at hset hidx hbase hblocks ⊢
  have hgrow : ∀ id ∈ m.blocks, id ∈ r.blocks := fun id hid => by
    rw [hblocks]
    exact (AList.mem_insert _).mpr (Or.inr hid)
  have hin : c.id ∈ r.blocks := by
    rw [hblocks]
    exact (AList.mem_insert _).mpr (Or.inl rfl)
  have hlisted : ∀ x, x ∈ (m.pendingBlocks.lookup c.id).getD [] ↔ x ∈ m.waiting ∧ x.parent = c.id := by
    intro x
    constructor
    · intro hx
      cases hl : m.pendingBlocks.lookup c.id with
      | none => simp [hl] at hx
      | some l =>
        rw [hl] at hx
        exact ⟨mem_waiting.mpr ⟨c.id, l, hl, hx⟩, (h.planted.parked _ l hl x hx).1⟩
    · rintro ⟨hx, hpar⟩
      rw [← hpar]
      exact (mem_waiting_iff h.planted.parked).mp hx
  have hparked : ParkedSound { r with pending := pr, pendingBlocks := m.pendingBlocks.erase c.id } :=
    Parked.erase h.planted.parked
  refine ⟨?_, hblocks, (GoMap.sum_lengths_erase _ _).symm, fun x hx => ?_, fun x hx hpar => ?_⟩
  · constructor
    · exact ⟨hblocks ▸ h.planted.tree.insert hc.sound, hgrow _ h.planted.genesis,
        by rw [show r.gcBase = m.gcBase from hbase]; exact hgrow _ h.planted.base, hparked⟩
    · exact hidx
    · exact hbase.trans h.gcBase
    · exact hset.trans h.set
    · intro id b hb
      rw [hblocks, GoMap.lookup_insert_of, if_neg]
      · exact h.known id b hb
      · rintro rfl
        exact hnew (h.grows _ (GoMap.mem_iff_lookup.mpr ⟨b, hb⟩))
    · intro id x hx hout
      rw [hblocks, GoMap.lookup_insert_of] at hx
      split at hx
      · obtain rfl := Option.some.inj hx
        exact ⟨hc.mono hgrow, hclaims⟩
      · exact ⟨(h.fresh id x hx hout).1.mono hgrow, (h.fresh id x hx hout).2⟩
    · intro x hx
      obtain ⟨id, l, hl, hxl⟩ := mem_waiting.mp hx
      rw [GoMap.lookup_erase_of] at hl
      split at hl
      · cases hl
      · exact h.waits x (mem_waiting.mpr ⟨id, l, hl, hxl⟩)
    · intro x hx hout
      refine (mem_waiting_iff hparked).mpr ?_
      have hne : x.parent ≠ c.id := fun hpar => hout (hpar ▸ hin)
      rw [GoMap.lookup_erase_of, if_neg hne]
      exact (mem_waiting_iff h.planted.parked).mp (h.kept x hx fun hm => hout (hgrow _ hm))
  · obtain ⟨hw, hpar⟩ := (hlisted x).mp hx
    obtain ⟨id, l, hl, hxl⟩ := mem_waiting.mp hw
    refine ⟨Or.inr ⟨h.waits x hw, ?_⟩, (h.planted.parked id l hl x hxl).2, hpar ▸ hc.up_id,
      fun y hy => ?_⟩
    · rw [hpar]
      exact fun hn => hnew (h.grows _ hn)
    · rw [hpar, hc.since_id] at hy
      rcases List.mem_cons.mp hy with rfl | hy
      · exact hin
      · exact hgrow _ (hc.stands y hy)
  · exact (hlisted x).mpr ⟨h.kept x hx (by rw [hpar]; exact hnew), hpar⟩

/-- **The worklist runs until it is empty**, and every listed block that claims its configuration is
in the tree then.  The fuel is what is listed and what is parked: a released block moves from one to
the other. -/
theorem loop (hp : Planted n) (hsafe : n.OriginSafe E bb) :
    ∀ (fuel : ℕ) (work : List Block) (m : Replica) (kids : List Proposal), Filled E n bb m →
    (∀ c ∈ work, Entrant n bb m c) → work.length + m.parkedCount ≤ fuel →
    Filled E n bb (Replica.addBlockLoop E fuel work m kids).1 ∧
      (∀ id ∈ m.blocks, id ∈ (Replica.addBlockLoop E fuel work m kids).1.blocks) ∧
      (∀ c ∈ work, n.Claims E bb.foot c →
        c.id ∈ (Replica.addBlockLoop E fuel work m kids).1.blocks) ∧
      Places E n bb m (Replica.addBlockLoop E fuel work m kids).1
  | 0, work, m, kids, h, _, hfuel => by
    obtain rfl : work = [] := List.eq_nil_of_length_eq_zero (by omega)
    exact ⟨h, fun _ hid => hid, fun _ hc => absurd hc List.not_mem_nil, fun _ _ hout hin =>
      absurd hin hout⟩
  | fuel + 1, [], m, kids, h, _, _ =>
    ⟨h, fun _ hid => hid, fun _ hc => absurd hc List.not_mem_nil, fun _ _ hout hin =>
      absurd hin hout⟩
  | fuel + 1, cur :: work, m, kids, h, hwork, hfuel => by
    have hcur := hwork cur List.mem_cons_self
    have hrest : ∀ c ∈ work, Entrant n bb m c := fun c hc => hwork c (List.mem_cons_of_mem _ hc)
    rw [List.length_cons] at hfuel
    simp only [Replica.addBlockLoop]
    cases hpass : m.passesOver E cur with
    | true =>
      rw [addBlockTurn_of_passesOver hpass]
      obtain ⟨h₁, hgrow, hin, hset⟩ := loop hp hsafe fuel work m (kids ++ []) h hrest (by omega)
      refine ⟨h₁, hgrow, fun c hc hclaims => ?_, hset⟩
      rcases List.mem_cons.mp hc with rfl | hc
      · -- it claims its configuration: if it is passed over, it is known
        refine hgrow _ ((passesOver_iff.mp hpass).resolve_right fun hgate => ?_)
        rw [(h.gate hp hcur).mpr hclaims] at hgate
        cases hgate
      · exact hin c hc hclaims
    | false =>
      obtain ⟨h₀, hblocks, hcount, hpushed, hfree⟩ := h.put hp hsafe hcur hpass
      have hstep : ∀ id ∈ m.blocks, id ∈ (m.addBlockTurn E cur).1.blocks := fun id hid => by
        rw [hblocks]
        exact (AList.mem_insert _).mpr (Or.inr hid)
      obtain ⟨h₁, hgrow, hin, hset⟩ := loop hp hsafe fuel
        ((m.addBlockTurn E cur).2.2.reverse ++ work) (m.addBlockTurn E cur).1
        (kids ++ (m.addBlockTurn E cur).2.1) h₀
        (fun c hc => (List.mem_append.mp hc).elim (fun hc => hpushed c (List.mem_reverse.mp hc))
          fun hc => (hrest c hc).mono hstep)
        (by rw [List.length_append, List.length_reverse]; omega)
      refine ⟨h₁, fun id hid => hgrow id (hstep id hid), fun c hc hclaims => ?_,
        fun c hc hout hpar hclaims => ?_⟩
      · rcases List.mem_cons.mp hc with rfl | hc
        · refine hgrow _ ?_
          rw [hblocks]
          exact (AList.mem_insert _).mpr (Or.inl rfl)
        · exact hin c (List.mem_append_right _ hc) hclaims
      · by_cases hnow : c.parent = cur.id
        · exact hin c (List.mem_append_left _ (List.mem_reverse.mpr (hfree c hc hnow))) hclaims
        · refine hset c hc ?_ hpar hclaims
          rw [hblocks, AList.mem_insert]
          exact not_or.mpr ⟨hnow, hout⟩

end Filled

/-! ## 5. All or nothing

A block that is refused stays out (`Shut`): what is inserted after it hangs above it.  So a batch of
which some block is not received leaves a gap that nothing in the same call can close. -/

theorem Places.trans {r : Replica} (h₁ : Places E n bb n m) (h₂ : Places E n bb m r)
    (hgrow : ∀ id ∈ m.blocks, id ∈ r.blocks) : Places E n bb n r := by
  intro c hc hout hin hclaims
  by_cases hm : c.parent ∈ m.blocks
  · exact hgrow _ (h₁ c hc hout hm hclaims)
  · exact h₂ c hc hm hin hclaims

theorem Filled.received (h : Filled E n bb m)
    (hinj : ∀ x ∈ bb.blocks, ∀ y ∈ bb.blocks, x.id = y.id → x = y) (hb : b ∈ bb.blocks)
    (hs : b.Sound) (hin : b.id ∈ m.blocks) : n.Received E bb.foot b := by
  by_cases hknown : b.id ∈ n.blocks
  · exact Or.inl hknown
  · obtain ⟨c, hc⟩ := GoMap.mem_iff_lookup.mp hin
    obtain ⟨he, hclaims⟩ := h.fresh _ c hc hknown
    have hid : c.id = b.id := (h.planted.tree _ c hc).1
    refine Or.inr ⟨c, ?_, hclaims⟩
    rcases he.form with hcb | ⟨hw, hpar⟩
    · rw [hinj c hcb b hb hid]
      exact List.mem_cons_self
    · have hparents : c.parent = b.parent := by rw [← he.sound.id_parent, hid, hs.id_parent]
      unfold Replica.forms
      rw [if_neg (hparents ▸ hpar)]
      exact List.mem_cons_of_mem _ (List.mem_filter.mpr ⟨hw, by simpa using hid⟩)

variable {acc : Replica × List Proposal}

/-- **One block of the batch**: it is in the tree afterwards if and only if it is received. -/
theorem Filled.insertBatchBlock (hp : Planted n) (hfoot : bb.foot ∈ n.blocks)
    (hsafe : n.OriginSafe E bb)
    (hinj : ∀ x ∈ bb.blocks, ∀ y ∈ bb.blocks, x.id = y.id → x = y) (h : Filled E n bb acc.1)
    (hset : Places E n bb n acc.1) (hb : b ∈ bb.blocks) (he : Entrant n bb acc.1 b) :
    Filled E n bb (Replica.insertBatchBlock E acc b).1 ∧
      Places E n bb n (Replica.insertBatchBlock E acc b).1 ∧
      (∀ id ∈ acc.1.blocks, id ∈ (Replica.insertBatchBlock E acc b).1.blocks) ∧
      (b.id ∈ (Replica.insertBatchBlock E acc b).1.blocks ↔ n.Received E bb.foot b) := by
  -- a form that waited was released when its parent went in, before this turn
  have hwaited : ∀ c ∈ n.forms b, c ≠ b → n.Claims E bb.foot c → b.id ∈ acc.1.blocks := by
    intro c hc hne hclaims
    have hc := (List.mem_cons.mp hc).resolve_left hne
    split at hc
    · cases hc
    next hpar =>
      obtain ⟨hw, hid⟩ := List.mem_filter.mp hc
      have hid : c.id = b.id := by simpa using hid
      have hcp : c.parent = b.parent := by
        obtain ⟨k, l, hl, hcl⟩ := mem_waiting.mp hw
        rw [← (hp.parked k l hl c hcl).2.id_parent, hid, he.sound.id_parent]
      rw [← hid]
      exact hset c hw (hcp ▸ hpar) (hcp ▸ he.parent_mem (h.grows _ hfoot)) hclaims
  unfold Replica.insertBatchBlock
  split
  next hin => exact ⟨h, hset, fun _ hid => hid, fun _ => h.received hinj hb he.sound hin, fun _ => hin⟩
  next hout =>
    obtain ⟨h₁, hgrow, hin, hset₁⟩ := Filled.loop hp hsafe (acc.1.parkedCount + 1) [b] acc.1 [] h
      (fun c hc => List.mem_singleton.mp hc ▸ he) (by rw [List.length_singleton]; omega)
    refine ⟨h₁, hset.trans hset₁ hgrow, hgrow, h₁.received hinj hb he.sound, ?_⟩
    rintro (hknown | ⟨c, hc, hclaims⟩)
    · exact h₁.grows _ hknown
    · by_cases hcb : c = b
      · exact hin b List.mem_cons_self (hcb ▸ hclaims)
      · exact absurd (hwaited c hc hcb hclaims) hout

/-- `id` is missing, and only blocks above it are inserted: it stays out. -/
structure Shut (id : BlockID) (m : Replica) : Prop where
  out : id ∉ m.blocks
  parked : ParkedSound m

theorem Shut.addBlockTurn {id : BlockID} (h : Shut id m) (hs : c.Sound)
    (hup : id ∈ c.parent.ancestors) : Shut id (m.addBlockTurn E c).1 ∧
      ∀ x ∈ (m.addBlockTurn E c).2.2, x.Sound ∧ id ∈ x.parent.ancestors := by
  cases hpass : m.passesOver E c with
  | true =>
    rw [addBlockTurn_of_passesOver hpass]
    exact ⟨h, fun x hx => absurd hx List.not_mem_nil⟩
  | false =>
    obtain ⟨pr, kids, heq⟩ := addBlockTurn_taken h.parked hpass
    have hblocks := insertBlock_blocks (E := E) c m
    have hne : id ≠ c.id := by
      rintro rfl
      have := BlockID.depth_le_of_mem_ancestors hup
      rw [hs.addressed] at this
      exact absurd this (Nat.not_succ_le_self _)
    rw [heq]
    refine ⟨⟨?_, Parked.erase h.parked⟩, fun x hx => ?_⟩
    · rw [hblocks, AList.mem_insert]
      exact not_or.mpr ⟨hne, h.out⟩
    · cases hl : m.pendingBlocks.lookup c.id with
      | none => simp [hl] at hx
      | some l =>
        rw [hl] at hx
        obtain ⟨hpar, hxs⟩ := h.parked _ l hl x hx
        rw [hpar, hs.ancestors]
        exact ⟨hxs, List.mem_cons_of_mem _ hup⟩

theorem Shut.foldl_insertBatchBlock {id : BlockID} : ∀ (bs : List Block)
    (acc : Replica × List Proposal), Shut id acc.1 →
    (∀ x ∈ bs, x.Sound ∧ id ∈ x.parent.ancestors) →
    Shut id (bs.foldl (Replica.insertBatchBlock E) acc).1
  | [], _, h, _ => h
  | b :: bs, acc, h, hall => by
    obtain ⟨hs, hup⟩ := hall b List.mem_cons_self
    refine Shut.foldl_insertBatchBlock bs _ ?_ fun x hx => hall x (List.mem_cons_of_mem _ hx)
    unfold Replica.insertBatchBlock
    split
    · exact h
    · obtain ⟨h₁, hnext⟩ := h.addBlockTurn (E := E) hs hup
      exact addBlockLocked_run (I := Shut id) (L := fun _ x => x.Sound ∧ id ∈ x.parent.ancestors)
        (fun m cur hm hc => ⟨(hm.addBlockTurn hc.1 hc.2).1, (hm.addBlockTurn hc.1 hc.2).2,
          fun _ hx => hx⟩) h₁ hnext

theorem Chained.above : ∀ {bs : List Block} {id : BlockID}, Chained id bs → (∀ b ∈ bs, b.Sound) →
    ∀ b ∈ bs, id ∈ b.parent.ancestors
  | [], _, _, _, _, hb => absurd hb List.not_mem_nil
  | x :: bs, id, h, hs, b, hb => by
    rcases List.mem_cons.mp hb with rfl | hb
    · rw [h.1]
      exact id.self_mem_ancestors
    · have hrec := Chained.above h.2 (fun y hy => hs y (List.mem_cons_of_mem _ hy)) b hb
      refine BlockID.ancestors_trans ?_ hrec
      rw [(hs x List.mem_cons_self).ancestors, h.1]
      exact List.mem_cons_of_mem _ id.self_mem_ancestors

/-- **The whole batch**: every block is in the tree afterwards if and only if every block is
received.  The first one that is not stays out. -/
theorem Filled.foldl_insertBatchBlock (hp : Planted n) (hfoot : bb.foot ∈ n.blocks)
    (hsafe : n.OriginSafe E bb)
    (hinj : ∀ x ∈ bb.blocks, ∀ y ∈ bb.blocks, x.id = y.id → x = y) :
    ∀ (bs : List Block) (tip : BlockID) (acc : Replica × List Proposal), Filled E n bb acc.1 →
    Places E n bb n acc.1 → bb.foot ∈ tip.ancestors →
    (∀ x ∈ tip.since bb.foot, x ∈ acc.1.blocks) → Chained tip bs →
    (∀ b ∈ bs, b ∈ bb.blocks ∧ b.Sound) →
    ((∀ b ∈ bs, b.id ∈ (bs.foldl (Replica.insertBatchBlock E) acc).1.blocks) ↔
      ∀ b ∈ bs, n.Received E bb.foot b) ∧
      ((∀ b ∈ bs, n.Received E bb.foot b) →
        Filled E n bb (bs.foldl (Replica.insertBatchBlock E) acc).1)
  | [], _, _, h, _, _, _, _, _ => ⟨by simp, fun _ => h⟩
  | b :: bs, tip, acc, h, hset, hup, hstands, hchain, hall => by
    obtain ⟨hpar, hrest⟩ := hchain
    obtain ⟨hb, hs⟩ := hall b List.mem_cons_self
    have hall' : ∀ x ∈ bs, x ∈ bb.blocks ∧ x.Sound := fun x hx => hall x (List.mem_cons_of_mem _ hx)
    have he : Entrant n bb acc.1 b :=
      ⟨Or.inl hb, hs, hpar ▸ hup, fun x hx => hstands x (hpar ▸ hx)⟩
    obtain ⟨h₁, hset₁, hgrow, hiff⟩ := h.insertBatchBlock hp hfoot hsafe hinj hset hb he
    rw [List.foldl_cons, List.forall_mem_cons, List.forall_mem_cons]
    by_cases hin : b.id ∈ (Replica.insertBatchBlock E acc b).1.blocks
    · obtain ⟨hrec, hfill⟩ := Filled.foldl_insertBatchBlock hp hfoot hsafe hinj bs b.id _ h₁ hset₁
        he.up_id (fun x hx => by
          rw [he.since_id] at hx
          exact (List.mem_cons.mp hx).elim (fun heq => heq ▸ hin) fun hx =>
            hgrow x (he.stands x hx)) hrest hall'
      rw [hrec]
      refine ⟨and_congr_left fun _ => iff_of_true ?_ (hiff.mp hin), fun hall => hfill hall.2⟩
      exact foldl_insertBatchBlock_keeps (P := fun m => b.id ∈ m.blocks) addBlockTurn_grows bs _ hin
    · have hshut := Shut.foldl_insertBatchBlock (E := E) bs _ ⟨hin, h₁.planted.parked⟩ fun x hx =>
        ⟨(hall' x hx).2, hrest.above (fun y hy => (hall' y hy).2) x hx⟩
      have hnot : ¬ n.Received E bb.foot b := fun hr => hin (hiff.mpr hr)
      exact ⟨iff_of_false (fun hc => hshut.out hc.1) fun hc => hnot hc.1, fun hc => absurd hc.1 hnot⟩

end Filling

section Batches

variable {E : Env} {n : Replica} {bs : List Block} {bb : BlockBatch}

theorem batchSound_chain : ∀ (bs : List Block) {id : BlockID} {height epoch : ℕ}
    (prev : Option BlockID), Replica.batchSound E n prev height epoch bs = true →
    (∀ b ∈ bs.head?, b.parent = id) →
    Chained id bs ∧ bs.Pairwise (fun a b => a.height < b.height) ∧
      ∀ b ∈ bs, b.Sound ∧ height < b.height
  | [], _, _, _, _, _, _ => ⟨trivial, List.Pairwise.nil, by simp⟩
  | b :: bs, id, height, epoch, prev, h, hid => by
    obtain ⟨hsound, -, hrest⟩ := batchSound_cons h
    have hlt : height < b.height := by
      unfold Replica.batchSound at h
      cases hj : b.justify with
      | none => simp [hj] at h
      | some qc =>
        simp only [hj, Bool.and_eq_true, decide_eq_true_eq] at h
        exact h.1.2.2
    have hnext : ∀ c ∈ bs.head?, c.parent = b.id := by
      intro c hc
      cases bs with
      | nil => cases hc
      | cons d rest =>
        obtain rfl := Option.some.inj hc
        exact (batchSound_cons hrest).2.1 b.id rfl
    obtain ⟨hchain, hpairs, hall⟩ := batchSound_chain bs (some b.id) hrest hnext
    refine ⟨⟨hid b rfl, hchain⟩, List.pairwise_cons.mpr ⟨fun c hc => (hall c hc).2, hpairs⟩,
      fun c hc => ?_⟩
    rcases List.mem_cons.mp hc with rfl | hc
    · exact ⟨hsound, hlt⟩
    · exact ⟨(hall c hc).1, hlt.trans (hall c hc).2⟩

theorem soundBatch_spec (h : n.soundBatch E bb.blocks = true) :
    bb.foot ∈ n.blocks ∧ Chained bb.foot bb.blocks ∧
      bb.blocks.Pairwise (fun a b => a.height < b.height) ∧ ∀ b ∈ bb.blocks, b.Sound := by
  unfold Replica.soundBatch at h
  split at h
  · cases h
  next lowest rest hbs =>
    split at h
    · cases h
    next anchor hanchor =>
      have hfoot : bb.foot = lowest.parent := by simp [BlockBatch.foot, hbs]
      rw [hbs] at h ⊢
      rw [hfoot]
      have hlow : ∀ b ∈ (lowest :: rest).head?, b.parent = lowest.parent := by
        intro b hb
        rw [Option.some.inj hb]
      obtain ⟨hchain, hpairs, hall⟩ := batchSound_chain (lowest :: rest) none h hlow
      exact ⟨GoMap.mem_iff_lookup.mpr ⟨anchor, hanchor⟩, hchain, hpairs, fun b hb => (hall b hb).1⟩

theorem eq_of_id_eq (hpairs : bs.Pairwise fun a b => a.height < b.height)
    (hs : ∀ b ∈ bs, b.Sound) : ∀ x ∈ bs, ∀ y ∈ bs, x.id = y.id → x = y := by
  intro x hx y hy hid
  have hnodup : (bs.map Block.height).Nodup := List.pairwise_map.mpr (hpairs.imp Nat.ne_of_lt)
  refine List.inj_on_of_nodup_map hnodup hx hy ?_
  rw [← (hs x hx).id_height, hid, (hs y hy).id_height]

theorem unmoved_of_idle
    (h : n.soundBatch E bb.blocks = false ∨ ∀ b ∈ bb.blocks, n.passesOver E b = true) :
    (n.insertBatchLocked E bb).1 = n := by
  rw [insertBatchLocked_eq]
  split
  next hs =>
    refine foldl_insertBatchBlock_idle bb.blocks (n, []) (h.resolve_left fun hno => ?_)
    rw [hs] at hno
    cases hno
  · rfl

theorem allOrNothing_of_idle
    (h : n.soundBatch E bb.blocks = false ∨ ∀ b ∈ bb.blocks, n.passesOver E b = true) :
    n.AllOrNothing E bb := by
  refine Or.inr ?_
  rw [unmoved_of_idle h]
  exact Unmoved.refl n

/-- **A sound batch goes in** if and only if every block of it is received. -/
theorem sound_batch_iff (hp : Planted n) (hidx : Indexed n.sets) (hsafe : n.OriginSafe E bb)
    (hs : n.soundBatch E bb.blocks = true) :
    ((∀ b ∈ bb.blocks, b.id ∈ (n.insertBatchLocked E bb).1.blocks) ↔
      ∀ b ∈ bb.blocks, n.Received E bb.foot b) ∧
      ((∀ b ∈ bb.blocks, n.Received E bb.foot b) → Filled E n bb (n.insertBatchLocked E bb).1) := by
  obtain ⟨hfoot, hchain, hpairs, hsound⟩ := soundBatch_spec hs
  rw [insertBatchLocked_eq, if_pos hs]
  exact Filled.foldl_insertBatchBlock hp hfoot hsafe (eq_of_id_eq hpairs hsound) bb.blocks
    bb.foot (n, []) (Filled.refl hp hidx) (fun _ _ hout hin => absurd hin hout)
    bb.foot.self_mem_ancestors (by rw [BlockID.since_self]; simp) hchain
    fun b hb => ⟨hb, hsound b hb⟩

/-- A batch of which something is taken is all or nothing if every block of it goes in. -/
theorem allOrNothing_iff (hp : Planted n) (hidx : Indexed n.sets) (hsafe : n.OriginSafe E bb) :
    n.AllOrNothing E bb ↔
      n.soundBatch E bb.blocks = false ∨ (∀ b ∈ bb.blocks, n.passesOver E b = true) ∨
        ∀ b ∈ bb.blocks, n.Received E bb.foot b := by
  cases hs : n.soundBatch E bb.blocks with
  | false => exact iff_of_true (allOrNothing_of_idle (Or.inl hs)) (Or.inl rfl)
  | true =>
    have hall := (sound_batch_iff hp hidx hsafe hs).1
    constructor
    · intro h
      refine Or.inr (or_iff_not_imp_left.mpr fun hsome => hall.mp (h.resolve_right fun hu => ?_))
      have htaken : ∃ b ∈ bb.blocks, n.passesOver E b = false := by simpa using hsome
      obtain ⟨x, hx, hxin⟩ := exists_new_of_taken bb.blocks (n, []) htaken
      have hblocks := hu.blocks
      rw [insertBatchLocked_eq, if_pos hs] at hblocks
      exact hx (hblocks ▸ hxin)
    · rintro (h | h | h)
      · cases h
      · exact allOrNothing_of_idle (Or.inr h)
      · exact Or.inl (hall.mpr h)

end Batches

/-! ## 6. Four of five

`L1` hears of block 7 before any other and asks `L0` for what is missing.  The epoch of a block is
not in its digest; `L0` sends the first five blocks, the last one under another epoch. -/

namespace Torn

/-- The block at a height; the fifth one claims `epoch`. -/
def block (epoch h : ℕ) : Block :=
  Script.blockAt (fun _ => [1]) (fun h => if h = 5 then epoch else 0) ["L0", "L1", "L2"] h

def batch (epoch : ℕ) : BlockBatch where
  requestID := 1
  anchor := genesisID
  target := (block 0 6).id
  blocks := [1, 2, 3, 4, 5].map (block epoch)
  sender := "L0"
  sig := (four false).priv "L0"

def asks : List (Host → Event) := [Script.propose "L0" (block 0 7)]

/-- `L1` waits for the blocks it has asked for. -/
def asking : Host :=
  (Host.machine plainEnv (Script.setup "L1" 1)).play (Script.boot plainEnv (Script.setup "L1" 1))
    asks

/-- What it is after the batch. -/
def answered (epoch : ℕ) : Host :=
  (Host.machine plainEnv (Script.setup "L1" 1)).play (Script.boot plainEnv (Script.setup "L1" 1))
    (asks ++ [Script.hear (.blockBatch (batch epoch))])

end Torn

end Cachey.HotStuff
