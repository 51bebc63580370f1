/-
# Catching up by ranges

A replica that is behind asks a peer for the blocks above its `bExec` up to some block T
(`GetBlocks`).  The peer answers with at most 512 of them, lowest first (`BlockBatch`); a batch
that does not reach T makes the requester ask again from the highest block it received.  Does this
end with every block in the requester's tree?

The requester checks a batch AS A WHOLE before it inserts anything (`batchSound`), with the
validator sets it has then.  A set that only a commit INSIDE the batch would bring is not there, and
the batch is dropped together with the request.

* §1  Inserting blocks sends no request, so the requests of a round are the continuation or none.
* §2  What the responder answers: a stretch of the branch of T.
* §3  The requester has a tree with no gap above its GC base.  Other calls keep it so unless a batch
      goes on above a block that was refused (`Contiguous.handle`).
* §4  What the requester makes of an answer: a batch it can judge (`Known`) goes in as a whole, by what
      `Cachey.HotStuff.Batch` says of any batch (`Served.taken`).
* §5  The exchange, with anything else the requester may handle between two answers.  In every run
      in which each answer finds its validator sets KNOWN and its epochs DERIVED (`Smooth`), it ends
      after at most one round for 512 blocks, with the whole branch in the tree (`completes`).
* §6  A chain with one transition: four blocks go in, five do not.
-/
import Cachey.HotStuff.Batch
import Cachey.HotStuff.Views

namespace Cachey.HotStuff

open Wal (WriteOutcome)

/-! ## 1. No request on the way -/

/-- The range request that is sent. -/
def Effect.request : Effect → Option GetBlocks
  | .send _ (.getBlocks g) => some g
  | _ => none

/-- The last range request of a journal. -/
def Replica.requested (n : Replica) : Option GetBlocks := n.out.findSome? Effect.request

def Hushed (n : Replica) : Prop := ∀ e ∈ n.out, e.request = none

theorem Hushed.requested {n : Replica} (h : Hushed n) : n.requested = none :=
  List.findSome?_eq_none_iff.mpr h

theorem inward_hushed : Inward Hushed where
  write := by
    intro n m hn hm e he
    rw [hm] at he
    exact hn e he
  emit := by
    intro n e he hn x hx
    rcases List.mem_cons.mp hx with rfl | hx
    · cases x with
      | send peer msg => exact absurd rfl (he peer msg)
      | _ => rfl
    · exact hn x hx
  activate := fun _ hn => hn

theorem Hushed.insertBatchLocked {E : Env} {n : Replica} (h : Hushed n) (bb : BlockBatch) :
    Hushed (n.insertBatchLocked E bb).1 := by
  rw [insertBatchLocked_eq]
  split
  · exact foldl_insertBatchBlock_keeps (fun _ cur hm => inward_hushed.addBlockTurn cur hm) _ _ h
  · exact h

/-! ## 2. The responder -/

def Effect.batch : Effect → Option BlockBatch
  | .send _ (.blockBatch bb) => some bb
  | _ => none

namespace Replica

/-- The answer to a range request, read off the journal of `HandleGetBlocks`. -/
def answerTo (E : Env) (g : GetBlocks) (p : Replica) : Option BlockBatch :=
  ({ p with out := [] }.handleGetBlocks E g).out.findSome? Effect.batch

/-- The branch of `t` above `anchor`, newest block first. -/
def stretch (anchor : BlockID) (t : Block) (p : Replica) : List Block :=
  (p.path t).takeWhile fun b => b.id ≠ anchor

end Replica

section Responder

variable {E : Env} {p : Replica} {blocks : GoMap BlockID Block}

theorem answerTo_spec (g : GetBlocks) : p.answerTo E g =
    if p.knownMemberLocked g.sender = true ∧ p.collectRangeLocked g.anchor g.target ≠ [] then
      some { requestID := g.requestID, anchor := g.anchor, target := g.target
             blocks := p.collectRangeLocked g.anchor g.target, sender := p.id
             sig := E.sign p.priv (.blockBatch g.requestID g.anchor g.target
               (p.collectRangeLocked g.anchor g.target) p.id) }
    else none := by
  have hk : { p with out := [] }.knownMemberLocked g.sender = p.knownMemberLocked g.sender := rfl
  have hc : { p with out := [] }.collectRangeLocked g.anchor g.target =
      p.collectRangeLocked g.anchor g.target := rfl
  unfold Replica.answerTo Replica.handleGetBlocks
  rw [hk, hc]
  generalize p.collectRangeLocked g.anchor g.target = bs
  cases p.knownMemberLocked g.sender with
  | false => rfl
  | true =>
    cases bs with
    | nil => rfl
    | cons b bs => rfl

theorem answerTo_eq {g : GetBlocks} (hk : p.knownMemberLocked g.sender = true)
    (hne : p.collectRangeLocked g.anchor g.target ≠ []) :
    ∃ sig, p.answerTo E g = some { requestID := g.requestID, anchor := g.anchor
                                   target := g.target
                                   blocks := p.collectRangeLocked g.anchor g.target
                                   sender := p.id, sig := sig } :=
  ⟨_, (answerTo_spec g).trans (if_pos ⟨hk, hne⟩)⟩

theorem walk_nodup (h : Grown blocks) : ∀ (fuel : ℕ) (b : Block),
    b.Good → ((walk blocks fuel b).map Block.id).Nodup
  | 0, b, _ => by simp [walk]
  | fuel + 1, b, hb => by
    rw [walk]
    split
    · simp
    next hno =>
      split
      · simp
      next q hq =>
        have hs : b.Sound := hb.resolve_left fun hg => hno hg.parent_eq
        obtain ⟨hqid, hqg⟩ := h _ q hq
        rw [List.map_cons, List.nodup_cons]
        refine ⟨fun hmem => ?_, walk_nodup h fuel q hqg⟩
        obtain ⟨x, hx, hxid⟩ := List.mem_map.mp hmem
        have hanc := walk_id_mem_ancestors h fuel q hqg x hx
        rw [hxid, hqid] at hanc
        have hlt : b.parent.depth < b.id.depth := by
          rw [hs.addressed]
          exact Nat.lt_succ_self _
        by_cases heq : b.parent = b.id
        · rw [heq] at hlt
          exact lt_irrefl _ hlt
        · have := BlockID.depth_lt_of_mem_ancestors hanc heq
          omega

theorem walk_pairwise (h : Grown blocks) :
    ∀ (fuel : ℕ) (b : Block), b.Good →
      (walk blocks fuel b).Pairwise fun x y => y.id ∈ x.id.ancestors
  | 0, b, _ => by simp [walk]
  | fuel + 1, b, hb => by
    have hall := walk_id_mem_ancestors h (fuel + 1) b hb
    rw [walk] at hall ⊢
    refine List.pairwise_cons.mpr ⟨fun x hx => hall x (List.mem_cons_of_mem _ hx), ?_⟩
    split
    · exact List.Pairwise.nil
    · split
      · exact List.Pairwise.nil
      next q hq => exact walk_pairwise h fuel q (h _ q hq).2

theorem takeWhile_ne_getElem : ∀ {l : List Block} {k : ℕ} {x : Block},
    (l.map Block.id).Nodup → l[k]? = some x → l.takeWhile (fun b => b.id ≠ x.id) = l.take k
  | [], _, _, _, h => by simp at h
  | a :: l, 0, x, _, h => by
    obtain rfl : a = x := by simpa using h
    simp
  | a :: l, k + 1, x, hnd, h => by
    rw [List.map_cons, List.nodup_cons] at hnd
    have hx : l[k]? = some x := by simpa using h
    have hne : a.id ≠ x.id := fun heq =>
      hnd.1 (List.mem_map.mpr ⟨x, List.mem_of_getElem? hx, heq.symm⟩)
    rw [List.takeWhile_cons_of_pos (by simpa using hne), takeWhile_ne_getElem hnd.2 hx,
      List.take_succ_cons]

theorem chained_append {b : Block} : ∀ {bs : List Block} {id : BlockID}, Chained id bs →
    b.parent = (bs.getLast?.map Block.id).getD id → Chained id (bs ++ [b])
  | [], _, _, hb => ⟨hb, trivial⟩
  | x :: bs, id, h, hb => by
    refine ⟨h.1, chained_append h.2 ?_⟩
    cases bs with
    | nil => exact hb
    | cons y bs =>
      rw [List.getLast?_cons_cons] at hb
      rw [List.getLast?_eq_some_getLast (List.cons_ne_nil y bs)] at hb ⊢
      exact hb

theorem chained_reverse {y : Block} : ∀ {l : List Block}, Branch (l ++ [y]) →
    Chained y.id l.reverse
  | [], _ => trivial
  | c :: l, h => by
    rw [List.reverse_cons]
    have hrest : Branch (l ++ [y]) := List.IsChain.tail h
    refine chained_append (chained_reverse hrest) ?_
    rw [List.getLast?_reverse]
    cases l with
    | nil =>
      have hlink := (List.isChain_cons_cons.mp h).1
      simp only [oneChainedBy, Bool.and_eq_true, decide_eq_true_eq] at hlink
      exact hlink.1.2
    | cons d l =>
      have hlink := (List.isChain_cons_cons.mp h).1
      simp only [oneChainedBy, Bool.and_eq_true, decide_eq_true_eq] at hlink
      exact hlink.1.2

theorem chained_take : ∀ {bs : List Block} {id : BlockID} (k : ℕ), Chained id bs →
    Chained id (bs.take k)
  | _, _, 0, _ => by simp [Chained]
  | [], _, _ + 1, _ => trivial
  | _ :: _, _, k + 1, h => ⟨h.1, chained_take k h.2⟩

end Responder

/-- **A responder that can serve** the branch of `t` above `anchor`: it holds the branch and finds
its certificates valid. -/
structure Serves (E : Env) (p : Replica) (anchor : BlockID) (t : Block) : Prop where
  planted : Planted p
  holds : p.blocks.lookup t.id = some t
  reaches : ∃ b ∈ p.path t, b.id = anchor
  certified : ∀ b ∈ p.stretch anchor t, ∀ qc ∈ b.justify, p.qcValid E qc = true
  rises : ∀ b ∈ p.stretch anchor t, b.parent.height < b.height ∧ b.height < 2 ^ 64

/-- Blocks a responder serves from `id` up. -/
structure Served (E : Env) (p : Replica) (id : BlockID) (bs : List Block) : Prop where
  tree : Grown p.blocks
  chained : Chained id bs
  anchor : id ∈ p.blocks
  held : ∀ b ∈ bs, p.blocks.lookup b.id = some b
  certified : ∀ b ∈ bs, ∀ qc ∈ b.justify, p.qcValid E qc = true
  rises : ∀ b ∈ bs, b.parent.height < b.height ∧ b.height < 2 ^ 64

section Answering

variable {E : Env} {p : Replica} {anchor : BlockID} {t y b : Block} {j : ℕ}

variable (h : Serves E p anchor t)

include h

theorem Serves.good : t.Good := (h.planted.tree _ t h.holds).2

theorem Serves.nodup : ((p.path t).map Block.id).Nodup :=
  walk_nodup h.planted.tree _ t h.good

theorem Serves.lookup (hb : b ∈ p.path t) : p.blocks.lookup b.id = some b := by
  rcases h.planted.tree.mem_walk _ t b hb with rfl | hb
  · exact h.holds
  · exact hb

theorem Serves.stretch_eq (hy : (p.path t)[j]? = some y) : p.stretch y.id t = (p.path t).take j :=
  takeWhile_ne_getElem h.nodup hy

theorem Serves.position :
    ∃ y, (p.path t)[(p.stretch anchor t).length]? = some y ∧ y.id = anchor := by
  obtain ⟨b, hb, rfl⟩ := h.reaches
  obtain ⟨i, hi⟩ := List.getElem?_of_mem hb
  have hlt : i < (p.path t).length := (List.getElem?_eq_some_iff.mp hi).1
  refine ⟨b, ?_, rfl⟩
  rw [h.stretch_eq hi, List.length_take, min_eq_left (le_of_lt hlt)]
  exact hi

theorem Serves.anchor_mem (hb : b ∈ p.stretch anchor t) : anchor ∈ b.id.ancestors := by
  obtain ⟨y, hy, rfl⟩ := h.position
  have hpair := walk_pairwise h.planted.tree (t.parent.depth + 1) t h.good
  change (p.path t).Pairwise _ at hpair
  rw [← List.take_append_drop (p.stretch y.id t).length (p.path t), List.pairwise_append] at hpair
  refine hpair.2.2 b ?_ y ?_
  · rw [← h.stretch_eq hy]
    exact hb
  · exact List.mem_of_getElem? (i := 0) (by rw [List.getElem?_drop, Nat.add_zero]; exact hy)

theorem Serves.collect (hy : (p.path t)[j]? = some y) :
    p.collectRangeLocked y.id t.id = ((p.path t).take j).reverse.take Replica.maxSyncBlocks := by
  unfold Replica.collectRangeLocked
  have hany : (p.path t).any (fun b => b.id = y.id) = true :=
    List.any_eq_true.mpr ⟨y, List.mem_of_getElem? hy, by simp⟩
  simp only [h.holds, hany, if_true]
  rw [← h.stretch_eq hy]
  rfl

theorem Serves.served (hy : (p.path t)[j]? = some y)
    (hsub : ∀ b ∈ (p.path t).take j, b ∈ p.stretch anchor t) :
    Served E p y.id (p.collectRangeLocked y.id t.id) := by
  have hmem : ∀ b ∈ p.collectRangeLocked y.id t.id, b ∈ (p.path t).take j := by
    intro b hb
    rw [h.collect hy] at hb
    exact List.mem_reverse.mp ((List.take_sublist _ _).subset hb)
  refine ⟨h.planted.tree, ?_, ?_, fun b hb => ?_, fun b hb => ?_, fun b hb => ?_⟩
  · rw [h.collect hy]
    refine chained_take _ (chained_reverse ?_)
    have hpath : (p.path t).take (j + 1) = (p.path t).take j ++ [y] := by
      rw [List.take_add_one, hy]
      rfl
    rw [← hpath]
    have hbranch := h.planted.tree.branch_walk (t.parent.depth + 1) t h.good.linked
    exact Branch.left ((p.path t).drop (j + 1)) ((List.take_append_drop _ _).symm ▸ hbranch)
  · exact GoMap.mem_iff_lookup.mpr ⟨y, h.lookup (List.mem_of_getElem? hy)⟩
  · exact h.lookup ((List.take_sublist _ _).subset (hmem b hb))
  · exact h.certified b (hsub b (hmem b hb))
  · exact h.rises b (hsub b (hmem b hb))

end Answering

/-! ## 3. The requester

A batch is judged by walks in the requester's tree.  Where a parent is missing above the GC base a
walk ends early, and the epoch derived there is not the one the blocks were built under. -/

/-- **A requester**: what a replica is in every run, and no parent is missing above its GC base. -/
structure Contiguous (n : Replica) : Prop where
  planted : Planted n
  indexed : Indexed n.sets
  complete : Complete n

section Gaps

variable {E : Env} {n n₀ n' : Replica} {b : Block} {S : Scope}

theorem Complete.record (hc : Complete n) (hg : Growing n₀ n) (hbase : n₀.gcBase ∈ n₀.blocks)
    (hs : b.Sound) (hpar : b.parent = noID ∨ b.parent ∈ n.blocks) : Complete (n.record b) := by
  obtain ⟨w, o, heq⟩ := record_eq b n
  rw [heq]
  intro id hid hup hne
  refine (AList.mem_insert _).mpr (Or.inr ?_)
  rcases (AList.mem_insert _).mp hid with rfl | hid
  · rw [hs.id_parent]
    refine hpar.resolve_left fun hno => ?_
    have hbelow := (BlockID.ancestors_parent hup hne).1
    rw [hs.id_parent, hno] at hbelow
    have hroot : n.gcBase = noID := List.mem_singleton.mp hbelow
    refine hg.tree.noID_notMem (hg.blocks _ ?_)
    rw [← hroot, hg.gcBase]
    exact hbase
  · exact hc id hid hup hne

theorem Complete.move (hlink : S.linked) (hown : ∀ b ∈ S.owns, b.parent ∈ n₀.blocks)
    (hbase : n₀.gcBase ∈ n₀.blocks) (h : Growing n₀ n ∧ Complete n) (hm : Move E S n n') :
    Growing n₀ n' ∧ Complete n' := by
  obtain ⟨hg, hc⟩ := h
  refine ⟨hg.move hm, ?_⟩
  cases hm with
  | aside ha =>
    unfold Complete
    rw [ha.blocks, ha.gcBase]
    exact hc
  | insert b _ hs _ _ hpar => exact hc.record hg hbase hs (hpar hlink)
  | own cmd hmem hready _ =>
    exact hc.record hg hbase ⟨rfl, n.qcHigh, rfl, hready⟩ (Or.inr (hg.blocks _ (hown _ hmem)))
  | fold qc _ _ =>
    have f := Folding.onNewQCLocked (E := E) qc n
    unfold Complete
    rw [f.blocks, f.gcBase]
    exact hc
  | adopt qc _ _ _ => exact hc
  | collect vc _ => exact hc
  | vote b _ _ _ =>
    rcases castVote_eq (E := E) b n with heq | ⟨_, w, o, heq⟩
    · rw [heq]
      exact hc
    · rw [heq]
      exact hc

theorem Indexed.handle (hp : Planted n) (hout : n.out = []) (h : Indexed n.sets) (C : Ctx)
    (inp : Input) : Indexed (n.handle E C inp).sets :=
  indexed_iff.mpr (AllSets.handle ownEpoch_law hp hout (indexed_iff.mp h) C inp)

/-- **Any call keeps a requester one**, if no batch of it goes on above a refused block and a block it
builds stands on a known one. -/
theorem Contiguous.handle {C : Ctx} {inp : Input} (h : Contiguous n) (hout : n.out = [])
    (hgap : n.GapFreeBatch E C inp) (hown : ∀ b ∈ n.building inp, b.parent ∈ n.blocks) :
    Contiguous (n.handle E C inp) where
  planted := (h.planted.handle hout inp).1
  indexed := h.indexed.handle h.planted hout C inp
  complete := by
    have hg : Growing n n := ⟨h.planted.tree, fun _ hid => hid, rfl, by simp [hout]⟩
    exact ((handle_moves (E := E) (C := C) h.planted.parked inp).1.invariant
      (fun _ _ hm => Complete.move hgap hown h.planted.base hm) ⟨hg, h.complete⟩).2

end Gaps

/-! ## 4. An answer -/

/-- **The requester can judge a batch.**  Where it knows a block that the responder knows, the two know
it under one epoch, and it has the responder's set for every epoch that is certified: so the first pass
finds what the responder found.  Every block is received, and no commit on the way can write the set the
derivations start from: so the second pass refuses none. -/
structure Known (E : Env) (p n : Replica) (bb : BlockBatch) : Prop where
  epochs : ∀ x ∈ bb.foot :: bb.blocks.map Block.id, ∀ a ∈ n.blocks.lookup x,
    ∀ a' ∈ p.blocks.lookup x, a.epoch = a'.epoch
  sets : ∀ b ∈ bb.blocks, ∀ qc ∈ b.justify, qc.nodeID ≠ genesisID →
    n.sets.lookup qc.epoch = p.sets.lookup qc.epoch
  safe : n.OriginSafe E bb
  received : ∀ b ∈ bb.blocks, n.Received E bb.foot b

instance (E : Env) (p n : Replica) (bb : BlockBatch) : Decidable (Known E p n bb) :=
  decidable_of_iff ((∀ x ∈ bb.foot :: bb.blocks.map Block.id, ∀ a ∈ n.blocks.lookup x,
        ∀ a' ∈ p.blocks.lookup x, a.epoch = a'.epoch) ∧
      (∀ b ∈ bb.blocks, ∀ qc ∈ b.justify, qc.nodeID ≠ genesisID →
        n.sets.lookup qc.epoch = p.sets.lookup qc.epoch) ∧
      n.OriginSafe E bb ∧ ∀ b ∈ bb.blocks, n.Received E bb.foot b)
    ⟨fun h => ⟨h.1, h.2.1, h.2.2.1, h.2.2.2⟩, fun h => ⟨h.epochs, h.sets, h.safe, h.received⟩⟩

section Judging

variable {E : Env} {p n : Replica} {id : BlockID} {bs : List Block} {C : Ctx} {bb : BlockBatch}
  {last : Block}

theorem chained_parent : ∀ {bs : List Block} {id : BlockID}, Chained id bs →
    ∀ b ∈ bs, b.parent = id ∨ ∃ x ∈ bs, x.id = b.parent
  | [], _, _, b, hb => absurd hb (by simp)
  | x :: bs, _, h, b, hb => by
    rcases List.mem_cons.mp hb with rfl | hb
    · exact Or.inl h.1
    · rcases chained_parent h.2 b hb with heq | ⟨y, hy, heq⟩
      · exact Or.inr ⟨x, List.mem_cons_self, heq.symm⟩
      · exact Or.inr ⟨y, List.mem_cons_of_mem _ hy, heq⟩

namespace Served

variable {b : Block}

theorem parent_mem (h : Served E p id bs) (hb : b ∈ bs) : b.parent ∈ p.blocks := by
  rcases chained_parent h.chained b hb with heq | ⟨x, hx, heq⟩
  · exact heq ▸ h.anchor
  · exact heq ▸ GoMap.mem_iff_lookup.mpr ⟨x, h.held x hx⟩

theorem sound (h : Served E p id bs) (hb : b ∈ bs) : b.Sound :=
  (h.tree _ b (h.held b hb)).2.resolve_left fun hg =>
    h.tree.noID_notMem (hg.parent_eq ▸ h.parent_mem hb)

/-- The certificate of a served block states what the responder knows of the block below. -/
theorem states (h : Served E p id bs) (hb : b ∈ bs) :
    ∃ qc q, b.justify = some qc ∧ qc.nodeID = b.parent ∧ p.blocks.lookup b.parent = some q ∧
      p.qcValid E qc = true ∧ qc.height = b.parent.height ∧ qc.epoch = q.epoch := by
  obtain ⟨qc, hj, hnode⟩ := (h.sound hb).certifies
  obtain ⟨q, hq⟩ := GoMap.mem_iff_lookup.mp (h.parent_mem hb)
  have hval := h.certified b hb qc hj
  obtain ⟨hh, he⟩ := h.tree.certified hval (hnode ▸ hq)
  exact ⟨qc, q, hj, hnode, hq, hval, hh.trans (h.tree.height hq), he⟩

theorem tail {x : Block} (h : Served E p id (x :: bs)) : Served E p x.id bs where
  tree := h.tree
  chained := h.chained.2
  anchor := GoMap.mem_iff_lookup.mpr ⟨x, h.held x List.mem_cons_self⟩
  held := fun b hb => h.held b (List.mem_cons_of_mem _ hb)
  certified := fun b hb => h.certified b (List.mem_cons_of_mem _ hb)
  rises := fun b hb => h.rises b (List.mem_cons_of_mem _ hb)

theorem foot_eq (h : Served E p id bs) (hbb : bb.blocks = bs) (hne : bs ≠ []) : bb.foot = id := by
  obtain ⟨x, rest, rfl⟩ := List.exists_cons_of_ne_nil hne
  rw [BlockBatch.foot, hbb]
  exact h.chained.1

/-- What the responder finds valid the requester does, if it can judge the batch. -/
theorem valid (h : Served E p id bs) (hn : Planted n) (hk : Known E p n bb) (hbb : bb.blocks = bs)
    (hb : b ∈ bs) {qc : QC} (hj : b.justify = some qc) : n.qcValid E qc = true := by
  obtain ⟨qc', q, hj', hnode, hq, hval, hh, he⟩ := h.states hb
  obtain rfl : qc = qc' := Option.some.inj (hj.symm.trans hj')
  by_cases hgen : qc.nodeID = genesisID
  · rw [Replica.qcValid, if_pos hgen] at hval ⊢
    exact hval
  · obtain ⟨hquorum, _⟩ := (qcValid_iff hgen).mp hval
    refine (qcValid_iff hgen).mpr ⟨?_, ?_⟩
    · unfold QC.hasQuorum at hquorum ⊢
      rw [hk.sets b (hbb ▸ hb) qc hj hgen]
      exact hquorum
    · unfold Replica.contradicts
      rw [hnode]
      split
      · rfl
      next y hy =>
        have hyh : y.height = b.parent.height := hn.tree.height hy
        have hmem : b.parent ∈ bb.foot :: bb.blocks.map Block.id := by
          rw [h.foot_eq hbb (List.ne_nil_of_mem hb), hbb]
          rcases chained_parent h.chained b hb with heq | ⟨x, hx, heq⟩
          · exact heq ▸ List.mem_cons_self
          · exact List.mem_cons_of_mem _ (List.mem_map.mpr ⟨x, hx, heq⟩)
        have hye : y.epoch = q.epoch := hk.epochs _ hmem y hy q hq
        simp [hyh, hye, hh, he]

theorem batchSound : ∀ {bs : List Block} {id : BlockID} (prev : Option BlockID) {a : Block},
    Served E p id bs → (∀ b ∈ bs, ∀ qc, b.justify = some qc → n.qcValid E qc = true) →
    (∀ x ∈ prev, x = id) → p.blocks.lookup id = some a →
    Replica.batchSound E n prev id.height a.epoch bs = true
  | [], _, _, _, _, _, _, _ => rfl
  | b :: bs, id, prev, a, h, hv, hprev, ha => by
    obtain ⟨qc, q, hj, hnode, hq, _, hh, he⟩ := h.states List.mem_cons_self
    have hs := h.sound List.mem_cons_self
    have hpar := h.chained.1
    have hlt := (h.rises b List.mem_cons_self).1
    rw [hpar] at hq hh hlt
    obtain rfl : a = q := Option.some.inj (ha.symm.trans hq)
    have hrec := batchSound (some b.id) h.tail
      (fun x hx => hv x (List.mem_cons_of_mem _ hx)) (by simp) (h.held b List.mem_cons_self)
    rw [hs.id_height] at hrec
    have hval := hv b List.mem_cons_self qc hj
    cases prev with
    | none => simp [Replica.batchSound, hrec, hs.addressed.symm, hj, hval, hnode, hh, he, hlt]
    | some x =>
      obtain rfl : x = b.parent := (hprev x rfl).trans hpar.symm
      simp [Replica.batchSound, hrec, hs.addressed.symm, hj, hval, hnode, hh, he, hlt]

/-- **A batch that the requester can judge goes in**; so does one that it has already. -/
theorem taken (h : Served E p id bs) (hn : Contiguous n) (hid : id ∈ n.blocks) (hbb : bb.blocks = bs)
    (hk : (∃ b ∈ bs, b.id ∉ n.blocks) → Known E p n bb) :
    Complete (n.insertBatchLocked E bb).1 ∧ ∀ b ∈ bs, b.id ∈ (n.insertBatchLocked E bb).1.blocks := by
  by_cases hmiss : ∃ b ∈ bs, b.id ∉ n.blocks
  · have hk := hk hmiss
    obtain ⟨lowest, rest, hcons⟩ := List.exists_cons_of_ne_nil
      (List.ne_nil_of_mem hmiss.choose_spec.1)
    have hfoot := h.foot_eq hbb (by rw [hcons]; exact List.cons_ne_nil _ _)
    obtain ⟨a, ha⟩ := GoMap.mem_iff_lookup.mp hid
    obtain ⟨a', ha'⟩ := GoMap.mem_iff_lookup.mp h.anchor
    have hs : n.soundBatch E bb.blocks = true := by
      have hpass := batchSound none h (fun b hb qc hj => h.valid hn.planted hk hbb hb hj) (by simp) ha'
      rw [← hn.planted.tree.height ha, ← hk.epochs id (hfoot ▸ List.mem_cons_self) a ha a' ha'] at hpass
      subst hcons
      unfold Replica.soundBatch
      rw [hbb]
      dsimp only
      rw [h.chained.1, ha]
      exact hpass
    obtain ⟨hiff, hfill⟩ := sound_batch_iff hn.planted hn.indexed hk.safe hs
    exact ⟨(hfill hk.received).complete hn.complete (hfoot ▸ hid), hbb ▸ hiff.mpr hk.received⟩
  · have hall : ∀ b ∈ bs, b.id ∈ n.blocks := by simpa using hmiss
    rw [unmoved_of_idle (Or.inr fun b hb => passesOver_iff.mpr (Or.inl (hall b (hbb ▸ hb))))]
    exact ⟨hn.complete, hall⟩

end Served

theorem handleBlockBatch_of_answers {req : SyncRequest} (h : n.answers E C.now bb = some req)
    (hlast : bb.blocks.getLast? = some last) :
    (n.handleBlockBatch E C bb).1 =
      let m := { (n.insertBatchLocked E bb).1 with
        syncReqs := (n.insertBatchLocked E bb).1.syncReqs.erase bb.requestID }
      if bb.target ∉ m.blocks ∧ last.id ∈ m.blocks then
        (m.markSyncLocked C.now last.id bb.target bb.sender).1.emit (.send bb.sender (.getBlocks
          { requestID := (m.markSyncLocked C.now last.id bb.target bb.sender).2.id
            anchor := last.id, target := bb.target, dest := bb.sender, sender := m.id }))
      else m := by
  unfold Replica.answers at h
  rw [Option.filter_eq_some_iff] at h
  obtain ⟨hreq, hok⟩ := h
  simp only [Bool.and_eq_true, decide_eq_true_eq] at hok
  obtain ⟨⟨hpeer, hnow⟩, hver⟩ := hok
  have hfresh : ¬ (req.peer ≠ bb.sender ∨ C.now > req.deadline) := by
    rintro (hne | hlt)
    · exact hne hpeer
    · omega
  unfold Replica.handleBlockBatch
  rw [hreq]
  dsimp only
  rw [if_neg hfresh, if_neg (not_not.mpr hver), hlast]
  dsimp only
  split <;> rfl

/-- **One answer**: the blocks are in the tree, and the requester asks on from the last of them
unless it has the target. -/
theorem Served.round (h : Served E p id bs) (hn : Contiguous n) (hout : n.out = [])
    (hid : id ∈ n.blocks) (hk : (∃ b ∈ bs, b.id ∉ n.blocks) → Known E p n bb)
    (hbb : bb.blocks = bs) (hans : (n.answers E C.now bb).isSome = true)
    (hlast : bs.getLast? = some last) {n' : Replica}
    (hn' : n' = n.handle E C (.deliver (.blockBatch bb))) :
    Complete n' ∧ (∀ b ∈ bs, b.id ∈ n'.blocks) ∧
      (bb.target ∈ n'.blocks → n'.requested = none) ∧
      (bb.target ∉ n'.blocks → ∃ r, n'.requested = some
        { requestID := r, anchor := last.id, target := bb.target, dest := bb.sender
          sender := n'.id }) := by
  obtain ⟨req, hreq⟩ := Option.isSome_iff_exists.mp hans
  obtain ⟨hc, hin⟩ := h.taken hn hid hbb hk
  have hhush := Hushed.insertBatchLocked (E := E) (n := n) (by simp [Hushed, hout]) bb
  replace hn' := hn'.trans (handleBlockBatch_of_answers hreq (hbb ▸ hlast))
  dsimp only at hn'
  generalize n.insertBatchLocked E bb = r at hc hin hhush hn'
  split at hn'
  next hgo =>
    subst hn'
    exact ⟨hc, hin, fun ht => absurd ht hgo.1, fun _ => ⟨u64 (r.1.syncSeq + 1), rfl⟩⟩
  next hstop =>
    subst hn'
    exact ⟨hc, hin, fun _ => hhush.requested, fun ht =>
      absurd ⟨ht, hin last (List.mem_of_getLast? hlast)⟩ hstop⟩

end Judging

/-! ## 5. The exchange

A request goes out from a block of the branch that the requester has, and each answer moves that
block 512 places up, or ends the exchange.  Other calls may come in between: they leave the request
under way and may insert blocks of the branch themselves. -/

/-- A requester, the request that is under way, and how many answers it has had. -/
structure Exchange where
  node : Replica
  asked : Option GetBlocks
  rounds : ℕ

namespace Exchange

/-- What happens to the requester: the answer arrives, or it handles something else. -/
inductive Event where
  | answer (ctx : Ctx) (writes : List WriteOutcome)
  | other (input : Input) (ctx : Ctx) (writes : List WriteOutcome)

/-- The first request: for `target`, from `bExec`. -/
def start (n : Replica) (now : ℕ) (target : BlockID) (peer : String) : Exchange :=
  let (n', req) := n.markSyncLocked now n.bExec target peer
  { node := n'
    asked := some { requestID := req.id, anchor := req.anchor, target := target, dest := peer
                    sender := n.id }
    rounds := 0 }

/-- The state a call starts in. -/
def ready (s : Exchange) (writes : List WriteOutcome) : Replica :=
  { s.node with out := [], writes := writes }

/-- The batch the responder `p` has for the request that is under way. -/
def batch (E : Env) (p : Replica) (s : Exchange) : Option BlockBatch :=
  s.asked.bind fun g => p.answerTo E g

/-- The responder's answer makes the requester ask on or not; another call leaves the request under
way. -/
def act (E : Env) (p : Replica) (s : Exchange) : Event → Exchange
  | .answer ctx writes =>
    match s.batch E p with
    | none => s
    | some bb =>
      let n := (s.ready writes).handle E ctx (.deliver (.blockBatch bb))
      { node := n, asked := n.requested, rounds := s.rounds + 1 }
  | .other input ctx writes => { s with node := (s.ready writes).handle E ctx input }

/-- There is an answer, if one is to arrive. -/
def Enabled (E : Env) (p : Replica) (s : Exchange) : Event → Prop
  | .answer _ _ => (s.batch E p).isSome = true
  | .other _ _ _ => True

instance (E : Env) (p : Replica) (s : Exchange) (e : Event) : Decidable (s.Enabled E p e) :=
  match e with
  | .answer _ _ => inferInstanceAs (Decidable ((s.batch E p).isSome = true))
  | .other _ _ _ => inferInstanceAs (Decidable True)

/-- The exchange as a machine, the responder's tree standing still. -/
abbrev machine (E : Env) (p : Replica) : Machine Exchange Event where
  enabled := Enabled E p
  act := act E p

/-- **The condition on a step.**  An answer is authentic and in time; and if it has a block that is
missing, the requester can judge it.  Another call does not tear the requester's tree: no batch that it
accepts goes on above a block that was refused, and a block that it builds stands on a known one. -/
def Smooth (E : Env) (p : Replica) (s : Exchange) : Event → Prop
  | .answer ctx _ => ∀ bb ∈ s.batch E p, (s.node.answers E ctx.now bb).isSome = true ∧
      ((∃ b ∈ bb.blocks, b.id ∉ s.node.blocks) → Known E p s.node bb)
  | .other input ctx writes => (s.ready writes).GapFreeBatch E ctx input ∧
      ∀ b ∈ s.node.building input, b.parent ∈ s.node.blocks

instance (E : Env) (p : Replica) (s : Exchange) (e : Event) : Decidable (s.Smooth E p e) :=
  match e with
  | .answer _ _ => inferInstanceAs (Decidable (∀ _ ∈ _, _ ∧ (_ → _)))
  | .other _ _ _ => inferInstanceAs (Decidable (_ ∧ ∀ _ ∈ _, _))

variable {E : Env} {p n : Replica} {t : Block}

/-- What holds of an exchange that began at the replica `n`, `k` blocks below `t`. -/
structure Inv (E : Env) (p n : Replica) (t : Block) (k : ℕ) (s : Exchange) : Prop where
  contiguous : Contiguous s.node
  id : s.node.id = n.id
  gcBase : s.node.gcBase = n.gcBase
  /-- a request goes out from a block of the branch, 512 blocks higher each time -/
  asking : ∀ g ∈ s.asked, g.target = t.id ∧ g.sender = n.id ∧ g.anchor ∈ s.node.blocks ∧
    ∃ j y, (p.path t)[j]? = some y ∧ y.id = g.anchor ∧ 0 < j ∧
      j + Replica.maxSyncBlocks * s.rounds = k
  done : s.asked = none → ∀ b ∈ p.stretch n.bExec t, b.id ∈ s.node.blocks

theorem Inv.ready {k : ℕ} {s : Exchange} (h : Inv E p n t k s) (writes : List WriteOutcome) :
    Contiguous (s.ready writes) :=
  ⟨h.contiguous.planted.congr ⟨rfl, rfl, rfl, rfl⟩, h.contiguous.indexed, h.contiguous.complete⟩

theorem Inv.other {k : ℕ} {s : Exchange} (h : Inv E p n t k s) {input : Input} {ctx : Ctx}
    {writes : List WriteOutcome} (hsm : s.Smooth E p (.other input ctx writes)) :
    Inv E p n t k (s.act E p (.other input ctx writes)) := by
  have hr := h.ready writes
  have hon := (handle_moves (E := E) (C := ctx) hr.planted.parked input).1.onward
  refine ⟨hr.handle rfl hsm.1 hsm.2, hon.id.trans h.id, hon.gcBase.trans h.gcBase, fun g hg => ?_,
    fun hnone b hb => hon.blocks _ (h.done hnone b hb)⟩
  obtain ⟨h₁, h₂, h₃, h₄⟩ := h.asking g hg
  exact ⟨h₁, h₂, hon.blocks _ h₃, h₄⟩

section Answer

variable {s : Exchange} {g : GetBlocks} {j : ℕ} {y : Block}

/-- A request from a block of the branch has an answer: the next 512 blocks, or all. -/
theorem answer_eq (hs : Serves E p n.bExec t) (hme : p.knownMemberLocked n.id = true)
    (hy : (p.path t)[j]? = some y) (hj : 0 < j) (hanchor : y.id = g.anchor)
    (htarget : g.target = t.id) (hsender : g.sender = n.id) :
    ∃ bb last, p.answerTo E g = some bb ∧ bb.blocks = p.collectRangeLocked y.id t.id ∧
      bb.target = t.id ∧ bb.blocks.getLast? = some last ∧
      (p.path t)[j - Replica.maxSyncBlocks]? = some last := by
  have hlt : j < (p.path t).length := (List.getElem?_eq_some_iff.mp hy).1
  obtain ⟨last, hlast⟩ : ∃ last, (p.path t)[j - Replica.maxSyncBlocks]? = some last :=
    ⟨_, List.getElem?_eq_getElem (by omega)⟩
  have hget : (p.collectRangeLocked y.id t.id).getLast? = some last := by
    have hlen : ((p.path t).take j).length = j := by
      rw [List.length_take]
      omega
    rw [hs.collect hy, List.take_reverse, List.getLast?_reverse, hlen, List.head?_drop,
      List.getElem?_take, if_pos (Nat.sub_lt hj (by decide))]
    exact hlast
  have hne : p.collectRangeLocked g.anchor g.target ≠ [] := by
    rw [← hanchor, htarget]
    intro hnil
    rw [hnil] at hget
    cases hget
  obtain ⟨sig, hans⟩ := answerTo_eq (E := E) (g := g) (by rw [hsender]; exact hme) hne
  refine ⟨_, last, hans, ?_, htarget, ?_, hlast⟩
  · rw [← hanchor, htarget]
  · rw [← hanchor, htarget]
    exact hget

theorem Inv.answer (hs : Serves E p n.bExec t) (hup : n.gcBase ∈ n.bExec.ancestors)
    (hme : p.knownMemberLocked n.id = true) {ctx : Ctx} {writes : List WriteOutcome}
    (h : Inv E p n t (p.stretch n.bExec t).length s) (hen : s.Enabled E p (.answer ctx writes))
    (hsm : s.Smooth E p (.answer ctx writes)) :
    Inv E p n t (p.stretch n.bExec t).length (s.act E p (.answer ctx writes)) := by
  obtain ⟨bb, hbatch⟩ := Option.isSome_iff_exists.mp hen
  obtain ⟨g, hg, hans⟩ := Option.bind_eq_some_iff.mp hbatch
  obtain ⟨htarget, hsender, hin, j, y, hy, hanchor, hj, hcount⟩ := h.asking g hg
  obtain ⟨bb', last, hans', hblocks, hbt, hlast, hpos⟩ :=
    answer_eq (E := E) hs hme hy hj hanchor htarget hsender
  obtain rfl : bb = bb' := Option.some.inj (hans.symm.trans hans')
  obtain ⟨htime, hknown⟩ := hsm bb hbatch
  -- what is answered lies in the stretch
  have hsub : ∀ b ∈ (p.path t).take j, b ∈ p.stretch n.bExec t := by
    obtain ⟨z, hz, hzid⟩ := hs.position
    have hst := hs.stretch_eq hz
    rw [hzid] at hst
    intro b hb
    rw [hst]
    exact (List.take_sublist_take_left (by omega)).subset hb
  have hserved := hs.served hy hsub
  rw [hanchor] at hserved hblocks
  have hr := h.ready writes
  have hon := (handle_moves (E := E) (C := ctx) hr.planted.parked (.deliver (.blockBatch bb))).1.onward
  have hplant := (hr.planted.handle (E := E) (C := ctx) rfl (.deliver (.blockBatch bb))).1
  have hidx := hr.indexed.handle (E := E) hr.planted rfl ctx (.deliver (.blockBatch bb))
  obtain ⟨hcomp, hall, hstop, hgo⟩ := hserved.round (n := s.ready writes) hr rfl hin
    (fun hm => by
      have hk := hknown (by rw [hblocks]; exact hm)
      exact ⟨hk.epochs, hk.sets, hk.safe, hk.received⟩)
    hblocks htime (by rw [← hblocks]; exact hlast) rfl
  have hact : s.act E p (.answer ctx writes) =
      { node := (s.ready writes).handle E ctx (.deliver (.blockBatch bb))
        asked := ((s.ready writes).handle E ctx (.deliver (.blockBatch bb))).requested
        rounds := s.rounds + 1 } := by
    unfold act
    rw [hbatch]
  rw [hact]
  rw [hbt] at hstop hgo
  generalize (s.ready writes).handle E ctx (.deliver (.blockBatch bb)) = n' at *
  have hlastIn : last ∈ p.collectRangeLocked g.anchor t.id :=
    hblocks ▸ List.mem_of_getLast? hlast
  have hgc : n'.gcBase = n.gcBase := hon.gcBase.trans h.gcBase
  have hid : n'.id = n.id := hon.id.trans h.id
  refine ⟨⟨hplant, hidx, hcomp⟩, hid, hgc, fun g' hg' => ?_, fun hnone b hb => ?_⟩
  · have hmiss : t.id ∉ n'.blocks := by
      intro ht
      rw [Option.mem_def, hstop ht] at hg'
      exact absurd hg' (by simp)
    obtain ⟨r, hr⟩ := hgo hmiss
    obtain rfl := Option.some.inj (hr.symm.trans hg')
    -- the target is the last block of any answer that is not full
    have hfull : Replica.maxSyncBlocks < j := by
      by_contra hle
      have hzero : j - Replica.maxSyncBlocks = 0 := Nat.sub_eq_zero_of_le (Nat.le_of_not_lt hle)
      rw [hzero] at hpos
      obtain ⟨rest, hrest⟩ := path_eq_cons p t
      rw [hrest] at hpos
      obtain rfl : t = last := by simpa using hpos
      exact hmiss (hall t hlastIn)
    refine ⟨rfl, hid, hall last hlastIn, j - Replica.maxSyncBlocks, last, hpos, rfl,
      Nat.sub_pos_of_lt hfull, ?_⟩
    rw [Nat.mul_succ]
    omega
  · have htin : t.id ∈ n'.blocks := by
      by_contra hmiss
      obtain ⟨r, hr⟩ := hgo hmiss
      exact absurd (hr.symm.trans hnone) (by simp)
    have hbup : n'.gcBase ∈ b.id.ancestors := by
      rw [hgc]
      exact BlockID.ancestors_trans hup (hs.anchor_mem hb)
    refine hcomp.between hbup htin ?_
    exact walk_id_mem_ancestors hs.planted.tree _ t hs.good b ((List.takeWhile_sublist _).subset hb)

end Answer

/-- **Range sync completes**, in every run whose answers meet `Smooth`: as long as a request is under
way the responder has an answer to it, this is so for at most one round per 512 blocks, and when no
request is under way the whole branch is in the requester's tree. -/
theorem completes {now : ℕ} {s : Exchange} (hn : Contiguous n) (hin : n.bExec ∈ n.blocks)
    (hup : n.gcBase ∈ n.bExec.ancestors) (hs : Serves E p n.bExec t)
    (hme : p.knownMemberLocked n.id = true) (hne : t.id ≠ n.bExec)
    (hrun : ((machine E p).restrict (Smooth E p)).Steps (start n now t.id p.id) s) :
    (∀ g ∈ s.asked, (p.answerTo E g).isSome = true ∧
      Replica.maxSyncBlocks * s.rounds < (p.stretch n.bExec t).length) ∧
    (s.asked = none → ∀ b ∈ p.stretch n.bExec t, b.id ∈ s.node.blocks) := by
  have hstart : Inv E p n t (p.stretch n.bExec t).length (start n now t.id p.id) := by
    refine ⟨⟨hn.planted.congr ⟨rfl, rfl, rfl, rfl⟩, hn.indexed, hn.complete⟩, rfl, rfl, fun g hg => ?_,
      fun h => absurd h (by simp [start])⟩
    obtain rfl := Option.some.inj hg
    obtain ⟨y, hy, hyid⟩ := hs.position
    refine ⟨rfl, rfl, hin, _, y, hy, hyid, ?_, rfl⟩
    obtain ⟨rest, hrest⟩ := path_eq_cons p t
    unfold Replica.stretch
    rw [hrest, List.takeWhile_cons_of_pos (by simpa using hne)]
    exact Nat.succ_pos _
  have hinv : Inv E p n t (p.stretch n.bExec t).length s := by
    refine hrun.invariant (fun u e h (hen : u.Enabled E p e ∧ u.Smooth E p e) => ?_) hstart
    cases e with
    | answer ctx writes => exact h.answer hs hup hme hen.1 hen.2
    | other input ctx writes => exact h.other hen.2
  refine ⟨fun g hg => ?_, hinv.done⟩
  obtain ⟨htarget, hsender, _, j, y, hy, hanchor, hj, hcount⟩ := hinv.asking g hg
  obtain ⟨bb, _, hans, _⟩ := answer_eq (E := E) hs hme hy hj hanchor htarget hsender
  exact ⟨by rw [hans]; rfl, by omega⟩

/-! ## 6. A chain with one transition

Block 1 removes `L3`; it is committed when the certificate of block 3 is folded, so block 4 claims
epoch 1 and block 5 has a certificate of epoch 1.  `L1` has followed the chain, `L2` has nothing. -/

namespace Behind

/-- `L2`, opened. -/
def node : Replica := Script.opened Script.leaving (Script.setup "L2" 1)

/-- `L2` asks `L1` for the block at height `k`, and the answer arrives. -/
def synced (k : ℕ) : Exchange :=
  (start node 0 (Leaving.block k).id "L1").act Script.leaving (Leaving.after k).node
    (.answer Move.still [])

theorem reached (k : ℕ) (h : (Host.machine Script.leaving (Script.setup "L1" 1)).plays
    (Script.boot Script.leaving (Script.setup "L1" 1)) (Leaving.chain k) = true) :
    (Host.machine Script.leaving (Script.setup "L1" 1)).Steps
      (Script.boot Script.leaving (Script.setup "L1" 1)) (Leaving.after k) :=
  Machine.steps_of_plays _ _ h

theorem planted (k : ℕ) (h : (Host.machine Script.leaving (Script.setup "L1" 1)).plays
    (Script.boot Script.leaving (Script.setup "L1" 1)) (Leaving.chain k) = true) :
    Planted (Leaving.after k).node := by
  have hopen : (Script.setup "L1" 1).fresh Script.leaving =
      .ok (Script.opened Script.leaving (Script.setup "L1" 1)) := rfl
  exact (Host.planted hopen (reached k h)).node

theorem contiguous : Contiguous node where
  planted := by
    have hopen : (Script.setup "L2" 1).fresh Script.leaving = .ok node := rfl
    exact (Host.Stocked.start hopen).node.congr ⟨rfl, rfl, rfl, rfl⟩
  indexed := by
    unfold Indexed
    decide +kernel
  complete := by
    have hkeys : ∀ id ∈ node.blocks.keys, id = node.gcBase := by decide +kernel
    exact fun id hid _ hne => absurd (hkeys id hid) hne

theorem serves_four : Serves Script.leaving (Leaving.after 4).node node.bExec (Leaving.block 4) where
  planted := planted 4 (by decide +kernel)
  holds := by decide +kernel
  reaches := by decide +kernel
  certified := by decide +kernel
  rises := by decide +kernel

theorem serves_five : Serves Script.leaving (Leaving.after 5).node node.bExec (Leaving.block 5) where
  planted := planted 5 (by decide +kernel)
  holds := by decide +kernel
  reaches := by decide +kernel
  certified := by decide +kernel
  rises := by decide +kernel

end Behind

/-- Four blocks go in, with the transition committed on the way. -/
theorem completes_four : (Behind.synced 4).asked = none ∧
    (∀ b ∈ (Leaving.after 4).node.stretch genesisID (Leaving.block 4),
      b.id ∈ (Behind.synced 4).node.blocks) ∧
    (Behind.synced 4).node.sets.lookup 1 = (Leaving.after 5).node.sets.lookup 1 := by
  have hrun : ((machine Script.leaving (Leaving.after 4).node).restrict
      (Smooth Script.leaving (Leaving.after 4).node)).Steps
        (start Behind.node 0 (Leaving.block 4).id (Leaving.after 4).node.id) (Behind.synced 4) :=
    Machine.Steps.head (l := .answer Move.still []) ⟨by decide +kernel, by decide +kernel⟩
      (Machine.Steps.refl _)
  have h := completes Behind.contiguous (by decide +kernel) (by decide +kernel) Behind.serves_four
    (by decide +kernel) (by decide +kernel) hrun
  have hasked : (Behind.synced 4).asked = none := by decide +kernel
  exact ⟨hasked, h.2 hasked, by decide +kernel⟩

/-- **Five blocks do not go in**: the exchange ends with none of them in the tree. -/
theorem completes_fails :
    Contiguous Behind.node ∧ Behind.node.bExec ∈ Behind.node.blocks ∧
      Behind.node.gcBase ∈ Behind.node.bExec.ancestors ∧
      Serves Script.leaving (Leaving.after 5).node Behind.node.bExec (Leaving.block 5) ∧
      (Host.machine Script.leaving (Script.setup "L1" 1)).Steps
        (Script.boot Script.leaving (Script.setup "L1" 1)) (Leaving.after 5) ∧
      (machine Script.leaving (Leaving.after 5).node).Steps
        (start Behind.node 0 (Leaving.block 5).id "L1") (Behind.synced 5) ∧
      (Behind.synced 5).asked = none ∧
      ∀ b ∈ (Leaving.after 5).node.stretch Behind.node.bExec (Leaving.block 5),
        b.id ∉ (Behind.synced 5).node.blocks :=
  ⟨Behind.contiguous, by decide +kernel, by decide +kernel, Behind.serves_five, Behind.reached 5 (by decide +kernel),
    Machine.Steps.head (l := .answer Move.still []) (by decide +kernel)
      (Machine.Steps.refl _),
    by decide +kernel, by decide +kernel⟩

end Exchange

end Cachey.HotStuff
