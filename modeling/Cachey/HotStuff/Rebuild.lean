/-
# Rebuilding a replica from its log

`FinishRecovery` derives the pointers of a replica a second time: it folds the recorded
certificates through the chain rules, without signatures, over the finished tree.  When does it
arrive where the live replica was?

For a replica whose writes all succeed and which collects no garbage, the lock, the executed
prefix and the vote height ALWAYS come back.  The rest does under two conditions, which are exact
(`Host.Rebuildable`):

* `qcHigh` was last raised by a recorded certificate.  A certificate ADOPTED in a view change is
  not recorded;
* what the executed blocks activate is what the last block of each commit activates.  The live
  commit loop activates every membership block of a span; recovery only the top one.

Section 1 is the fold on the fields it writes, section 2 the replay, section 3 the correspondence
of a live replica with its log, move by move.
-/
import Cachey.HotStuff.Script
import Cachey.HotStuff.Tree

namespace Cachey.HotStuff

open Wal (Op Record WriteOutcome)

/-! ## 1. The chain rules on recorded certificates -/

/-- What folding a recorded certificate writes: `qcHigh`, the locked and the executed block, and
the validator sets with the current epoch. -/
structure Pointers where
  qcHigh : QC
  lock : Block
  exec : Block
  active : GoMap Nat ValidatorSet × Nat

namespace Pointers

/-- `recoverQC` on these fields. -/
def fold (E : Env) (blocks : GoMap BlockID Block) (p : Pointers) (qc : QC) : Pointers :=
  if qc.height ≤ p.qcHigh.height then p
  else
    let noted := { p with qcHigh := qc }
    match blocks.lookup qc.nodeID with
    | none => noted
    | some c =>
      match blocks.lookup c.parent with
      | none => noted
      | some parent =>
        if ¬ oneChainedBy parent c then noted
        else
          let locked := { noted with
            lock := if parent.height > p.lock.height then parent else p.lock }
          match blocks.lookup parent.parent with
          | none => locked
          | some gp =>
            if oneChainedBy gp parent ∧ gp.height > p.exec.height then
              { locked with exec := gp, active := activation E p.active gp }
            else locked

/-- The state of the recovery loop with these pointers. -/
def within (r : Replica) (p : Pointers) : Replica.Recovered where
  replica := { r with sets := p.active.1, epoch := p.active.2 }
  qcHigh := p.qcHigh
  lock := p.lock
  exec := p.exec

theorem recoverQC_within (E : Env) (r : Replica) (p : Pointers) (qc : QC) :
    Replica.recoverQC E (p.within r) qc = (p.fold E r.blocks qc).within r := by
  unfold Replica.recoverQC fold within
  dsimp only
  split
  · rfl
  cases r.blocks.lookup qc.nodeID with
  | none => rfl
  | some c =>
    dsimp only
    cases r.blocks.lookup c.parent with
    | none => rfl
    | some parent =>
      dsimp only
      split
      · rfl
      by_cases hlock : parent.height > p.lock.height
      all_goals
        simp only [hlock, if_true, if_false]
        cases r.blocks.lookup parent.parent with
        | none => rfl
        | some gp =>
          dsimp only
          split
          · rw [activateTransitionLocked_eq]
          · rfl

theorem foldl_recoverQC_within (E : Env) (r : Replica) : ∀ (qcs : List QC) (p : Pointers),
    qcs.foldl (Replica.recoverQC E) (p.within r) = (qcs.foldl (fold E r.blocks) p).within r
  | [], _ => rfl
  | qc :: qcs, p => by
    rw [List.foldl_cons, recoverQC_within, foldl_recoverQC_within E r qcs, List.foldl_cons]

theorem fold_qcHigh (E : Env) (blocks : GoMap BlockID Block) (p : Pointers) (qc : QC) :
    (p.fold E blocks qc).qcHigh = if qc.height ≤ p.qcHigh.height then p.qcHigh else qc := by
  unfold fold
  repeat' split
  all_goals rfl

theorem foldl_fold_qcHigh (E : Env) (blocks : GoMap BlockID Block) : ∀ (qcs : List QC)
    (p : Pointers), (qcs.foldl (fold E blocks) p).qcHigh = p.qcHigh ∨
      p.qcHigh.height < (qcs.foldl (fold E blocks) p).qcHigh.height
  | [], _ => Or.inl rfl
  | qc :: qcs, p => by
    have hone := fold_qcHigh E blocks p qc
    rw [List.foldl_cons]
    split at hone
    next => exact hone ▸ foldl_fold_qcHigh E blocks qcs (p.fold E blocks qc)
    next hlt =>
      right
      rcases foldl_fold_qcHigh E blocks qcs (p.fold E blocks qc) with h | h
      · rw [h, hone]
        omega
      · rw [hone] at h
        omega

end Pointers

/-- Every parent named in the tree is there. -/
def Closed (blocks : GoMap BlockID Block) : Prop :=
  ∀ id b, blocks.lookup id = some b → b.parent = noID ∨ b.parent ∈ blocks

namespace Pointers

variable {E : Env} {blocks blocks' : GoMap BlockID Block} {p : Pointers} {qc : QC}

/-- A tree that grows does not change what a certificate of a known block leads to. -/
theorem fold_grow (hgrow : ∀ id, id = noID ∨ id ∈ blocks → blocks'.lookup id = blocks.lookup id)
    (hclosed : Closed blocks) (hqc : qc.nodeID = noID ∨ qc.nodeID ∈ blocks) :
    p.fold E blocks' qc = p.fold E blocks qc := by
  unfold fold
  rw [hgrow _ hqc]
  cases hc : blocks.lookup qc.nodeID with
  | none => rfl
  | some c =>
    dsimp only
    rw [hgrow _ (hclosed _ c hc)]
    cases hp : blocks.lookup c.parent with
    | none => rfl
    | some parent =>
      dsimp only
      rw [hgrow _ (hclosed _ parent hp)]

theorem foldl_fold_grow (hclosed : Closed blocks)
    (hgrow : ∀ id, id = noID ∨ id ∈ blocks → blocks'.lookup id = blocks.lookup id) :
    ∀ (qcs : List QC) (p : Pointers), (∀ qc ∈ qcs, qc.nodeID = noID ∨ qc.nodeID ∈ blocks) →
      qcs.foldl (fold E blocks') p = qcs.foldl (fold E blocks) p
  | [], _, _ => rfl
  | qc :: qcs, p, h => by
    rw [List.foldl_cons, List.foldl_cons, fold_grow hgrow hclosed (h qc List.mem_cons_self)]
    exact foldl_fold_grow hclosed hgrow qcs _ fun x hx => h x (List.mem_cons_of_mem _ hx)

variable (hlt : p.qcHigh.height < qc.height)

include hlt

/-- A certificate that is the second link of no chain is only noted. -/
theorem fold_unlinked (h : ∀ c, blocks.lookup qc.nodeID = some c →
      ∀ parent, blocks.lookup c.parent = some parent → oneChainedBy parent c = false) :
    p.fold E blocks qc = { p with qcHigh := qc } := by
  unfold fold
  rw [if_neg (by omega)]
  cases hc : blocks.lookup qc.nodeID with
  | none => rfl
  | some c =>
    dsimp only
    cases hp : blocks.lookup c.parent with
    | none => rfl
    | some parent => simp [h c hc parent hp]

variable {c parent : Block} (hc : blocks.lookup qc.nodeID = some c)
  (hp : blocks.lookup c.parent = some parent) (hone : oneChainedBy parent c = true)

include hc hp hone

theorem fold_lock (hno : ∀ gp, blocks.lookup parent.parent = some gp →
      oneChainedBy gp parent = true → gp.height ≤ p.exec.height) :
    p.fold E blocks qc = { p with
      qcHigh := qc, lock := if parent.height > p.lock.height then parent else p.lock } := by
  simp only [fold, if_neg (Nat.not_le.mpr hlt), hc, hp, hone, not_true_eq_false, if_false]
  cases hg : blocks.lookup parent.parent with
  | none => rfl
  | some gp => exact if_neg fun h => absurd (hno gp hg h.1) (by omega)

theorem fold_commit {gp : Block} (hg : blocks.lookup parent.parent = some gp)
    (htwo : oneChainedBy gp parent = true) (hhigh : p.exec.height < gp.height) :
    p.fold E blocks qc = {
      qcHigh := qc, lock := if parent.height > p.lock.height then parent else p.lock,
      exec := gp, active := activation E p.active gp } := by
  simp only [fold, if_neg (Nat.not_le.mpr hlt), hc, hp, hone, hg, not_true_eq_false, if_false]
  exact if_pos ⟨htwo, hhigh⟩

end Pointers

/-! ## 2. The log and its replay -/

def PersistEntry.certificate : PersistEntry → Option QC
  | .qc c => some c
  | _ => none

/-- The executed watermark of a record. -/
def PersistEntry.watermark : PersistEntry → Option BlockID
  | .applied id => some id
  | _ => none

def certificates (log : List PersistEntry) : List QC := log.filterMap PersistEntry.certificate

/-- The last blocks of the commits, oldest first. -/
def watermarks (log : List PersistEntry) : List BlockID := log.filterMap PersistEntry.watermark

def executions (out : List Effect) : List BlockID := (execsOf out).reverse

/-- `ApplyRecoveredRecord` on a log. -/
def Replica.replay (n : Replica) (log : List PersistEntry) : Replica :=
  log.foldl (fun n pe => n.applyRecoveredEntry pe) n

theorem replay_concat (n : Replica) (log : List PersistEntry) (pe : PersistEntry) :
    n.replay (log ++ [pe]) = (n.replay log).applyRecoveredEntry pe := by
  simp [Replica.replay, List.foldl_append]

/-- A replay writes the tree, the vote height and what `FinishRecovery` is to fold. -/
theorem replay_eq (n : Replica) (log : List PersistEntry) : n.replay log = { n with
    blocks := (n.replay log).blocks
    vHeight := (n.replay log).vHeight
    recoverQCs := n.recoverQCs ++ certificates log
    recoverExec := (n.replay log).recoverExec } := by
  induction log using List.reverseRecOn with
  | nil => simp [Replica.replay, certificates]
  | append_singleton log pe ih =>
    rw [replay_concat, ih]
    cases pe
    all_goals
      unfold Replica.applyRecoveredEntry
      dsimp only
      repeat' split
      all_goals simp [certificates, PersistEntry.certificate]

variable {out out' : List Effect}

theorem journal_span {s : List Block}
    (h : out'.filter Effect.isKey =
      (s.map fun b => Effect.exec b.id).reverse ++ out.filter Effect.isKey) :
    durableOf out' = durableOf out ∧ executions out' = executions out ++ s.map (·.id) := by
  have hd : ∀ e : Effect, e.isKey = false → e.durable = none := by
    intro e he
    cases e with
    | wrote _ _ => exact absurd he (by simp [Effect.isKey])
    | _ => rfl
  unfold durableOf executions
  rw [(votes_execs_of_isKey h).2, filterMap_isKey hd h, List.filterMap_reverse,
    List.filterMap_map]
  simp [Function.comp_def, Effect.durable]

/-! ## 3. A live replica and its log -/

/-- The pointers of a replica that has done nothing yet. -/
def Replica.startPointers (n : Replica) : Pointers where
  qcHigh := n.qcHigh
  lock := n.blockAt n.bLock
  exec := n.blockAt n.bExec
  active := (n.sets, n.epoch)

/-- The pointers certificates lead to over a tree. -/
def Replica.pointers (E : Env) (n : Replica) (certs : List QC) (blocks : GoMap BlockID Block) :
    Pointers :=
  certs.foldl (Pointers.fold E blocks) n.startPointers

/-- What blocks activate, from the sets and the epoch of `n` on. -/
def Replica.activated (E : Env) (n : Replica) (blocks : GoMap BlockID Block)
    (ids : List BlockID) : GoMap Nat ValidatorSet × Nat :=
  (ids.filterMap blocks.lookup).foldl (activation E) (n.sets, n.epoch)

/-- What a log amounts to: its certificates, its watermarks, and the replica it replays to. -/
structure Journal where
  certs : List QC
  marks : List BlockID
  replayed : Replica

/-- The journal after one more record. -/
def Journal.push (J : Journal) : PersistEntry → Journal
  | .qc qc => { J with
      certs := J.certs ++ [qc], replayed := J.replayed.applyRecoveredEntry (.qc qc) }
  | .applied id => { J with
      marks := J.marks ++ [id], replayed := J.replayed.applyRecoveredEntry (.applied id) }
  | pe => { J with replayed := J.replayed.applyRecoveredEntry pe }

/-- The journal of a log, for a replica that started as `n`. -/
def Replica.journal (n : Replica) (log : List PersistEntry) : Journal where
  certs := certificates log
  marks := watermarks log
  replayed := n.replay log

theorem journal_concat (n : Replica) (log : List PersistEntry) (pe : PersistEntry) :
    n.journal (log ++ [pe]) = (n.journal log).push pe := by
  cases pe <;> simp [Replica.journal, Journal.push, certificates, watermarks,
    PersistEntry.certificate, PersistEntry.watermark, replay_concat]

/-- `m` is a live replica that started as `n₁`, has recorded the journal `J` and executed `done`. -/
structure Mirrors (E : Env) (n₁ : Replica) (J : Journal) (done : List BlockID) (m : Replica) :
    Prop where
  logStore : m.logStore = true
  writes : m.writes = []
  tree : Grown m.blocks
  closed : Closed m.blocks
  root : ∀ id ∈ n₁.blocks, m.blocks.lookup id = n₁.blocks.lookup id
  /-- certificates, watermarks and executions are of blocks of the tree -/
  certified : ∀ qc ∈ J.certs, qc.nodeID = noID ∨ qc.nodeID ∈ m.blocks
  marked : ∀ id ∈ J.marks, id ∈ m.blocks
  executed : ∀ id ∈ done, id ∈ m.blocks
  high : m.qcHigh.nodeID = noID ∨ m.qcHigh.nodeID ∈ m.blocks
  /-- the recorded certificates lead to the lock and to the executed prefix -/
  lock : m.blocks.lookup m.bLock = some (n₁.pointers E J.certs m.blocks).lock
  exec : m.blocks.lookup m.bExec = some (n₁.pointers E J.certs m.blocks).exec
  raised : (n₁.pointers E J.certs m.blocks).qcHigh.height ≤ m.qcHigh.height
  last : (n₁.pointers E J.certs m.blocks).qcHigh = J.certs.getLastD n₁.qcHigh
  /-- recovery activates the last block of each commit, the live replica every executed one -/
  tops : (n₁.pointers E J.certs m.blocks).active = n₁.activated E m.blocks J.marks
  live : (m.sets, m.epoch) = n₁.activated E m.blocks done
  /-- the replay gives the tree and the vote height, and the watermark is `bExec` -/
  blocks : ∀ id, J.replayed.blocks.lookup id = m.blocks.lookup id
  vHeight : J.replayed.vHeight = m.vHeight
  watermark : J.replayed.recoverExec = noID ∨ J.replayed.recoverExec = m.bExec

namespace Mirrors

variable {E : Env} {n₁ m m' : Replica} {J : Journal} {done : List BlockID}
  {qc : QC} {span : List Block}

theorem aside (h : Mirrors E n₁ J done m) (a : Aside m m') : Mirrors E n₁ J done m' := by
  obtain ⟨_, hepoch, hsets, _, hblocks, hhigh, hlock, hexec, hv, hlog, hwrites, _⟩ := a
  cases m
  cases m'
  subst hepoch hsets hblocks hhigh hlock hexec hv hlog hwrites
  exact { h with }

theorem mem_replayed (h : Mirrors E n₁ J done m) (id : BlockID) :
    id ∈ J.replayed.blocks ↔ id ∈ m.blocks := by
  rw [GoMap.mem_iff_lookup, GoMap.mem_iff_lookup, h.blocks]

theorem activated_grow {blocks blocks' : GoMap BlockID Block}
    (hgrow : ∀ id ∈ blocks, blocks'.lookup id = blocks.lookup id) {ids : List BlockID}
    (hids : ∀ id ∈ ids, id ∈ blocks) : n₁.activated E blocks' ids = n₁.activated E blocks ids := by
  unfold Replica.activated
  congr 1
  exact List.filterMap_congr fun id hid => hgrow id (hids id hid)

theorem insert (h : Mirrors E n₁ J done m) {b : Block} (hs : b.Sound) (hnew : b.id ∉ m.blocks)
    (hp : b.parent = noID ∨ b.parent ∈ m.blocks) :
    Mirrors E n₁ (J.push (.block b)) done { m with blocks := m.blocks.insert b.id b } := by
  have hgrow : ∀ id ∈ m.blocks, (m.blocks.insert b.id b).lookup id = m.blocks.lookup id := by
    intro id hid
    rw [GoMap.lookup_insert_of, if_neg (by rintro rfl; exact hnew hid)]
  have hstay : ∀ {id}, id ∈ m.blocks → id ∈ m.blocks.insert b.id b :=
    fun hid => (AList.mem_insert _).mpr (Or.inr hid)
  have hlook : ∀ {id : BlockID} {x : Block}, m.blocks.lookup id = some x →
      (m.blocks.insert b.id b).lookup id = some x := fun hx =>
    (hgrow _ (GoMap.mem_iff_lookup.mpr ⟨_, hx⟩)).trans hx
  have hptr : n₁.pointers E J.certs (m.blocks.insert b.id b) = n₁.pointers E J.certs m.blocks := by
    refine Pointers.foldl_fold_grow h.closed ?_ _ _ h.certified
    rintro id (rfl | hid)
    · rw [GoMap.lookup_insert_of, if_neg (fun heq => hs.id_ne_raw "" heq.symm)]
    · exact hgrow id hid
  -- the replay takes the block as the live replica did
  have hreplay : J.push (.block b) = { J with replayed := { J.replayed with
      blocks := J.replayed.blocks.insert b.id b } } := by
    have hbad : ¬ (b.id = genesisID ∨ b.id ≠ blockID b.view b.height b.parent b.cmd) :=
      not_or.mpr ⟨hs.id_ne_raw _, not_not.mpr hs.addressed⟩
    simp only [Journal.push, Replica.applyRecoveredEntry, h.mem_replayed]
    rw [if_neg hbad, if_neg (fun hno => hp.elim hno.1 hno.2), if_neg hnew]
  rw [hreplay]
  exact {
    logStore := h.logStore
    writes := h.writes
    tree := h.tree.insert hs
    closed := by
      intro id x hx
      rw [GoMap.lookup_insert_of] at hx
      split at hx
      · obtain rfl := Option.some.inj hx
        exact hp.imp_right hstay
      · exact (h.closed id x hx).imp_right hstay
    root := by
      intro id hid
      have hin : id ∈ m.blocks := by
        rw [GoMap.mem_iff_lookup, h.root id hid]
        exact GoMap.mem_iff_lookup.mp hid
      exact (hgrow id hin).trans (h.root id hid)
    certified := fun qc hqc => (h.certified qc hqc).imp_right hstay
    marked := fun id hid => hstay (h.marked id hid)
    executed := fun id hid => hstay (h.executed id hid)
    high := h.high.imp_right hstay
    lock := by rw [hptr]; exact hlook h.lock
    exec := by rw [hptr]; exact hlook h.exec
    raised := by rw [hptr]; exact h.raised
    last := by rw [hptr]; exact h.last
    tops := by rw [hptr, activated_grow hgrow h.marked]; exact h.tops
    live := by rw [activated_grow hgrow h.executed]; exact h.live
    blocks := fun id => by rw [GoMap.lookup_insert_of, GoMap.lookup_insert_of, h.blocks]
    vHeight := h.vHeight
    watermark := h.watermark }

theorem voted (h : Mirrors E n₁ J done m) {v : ℕ} (hv : m.vHeight < v) :
    Mirrors E n₁ (J.push (.voted v)) done { m with vHeight := v } := by
  have hreplay : J.push (.voted v) = { J with replayed := { J.replayed with vHeight := v } } := by
    simp [Journal.push, Replica.applyRecoveredEntry, h.vHeight, hv]
  rw [hreplay]
  exact { h with vHeight := rfl }

theorem adopt (h : Mirrors E n₁ J done m) (hin : qc.nodeID ∈ m.blocks)
    (hlt : m.qcHigh.height < qc.height) : Mirrors E n₁ J done { m with qcHigh := qc } :=
  { h with high := Or.inr hin, raised := h.raised.trans (le_of_lt hlt) }

theorem activated_append (blocks : GoMap BlockID Block) (ids : List BlockID)
    (hspan : ∀ x ∈ span, blocks.lookup x.id = some x) :
    n₁.activated E blocks (ids ++ span.map (·.id)) =
      span.foldl (activation E) (n₁.activated E blocks ids) := by
  have hback : (span.map (·.id)).filterMap blocks.lookup = span := by
    rw [List.filterMap_map]
    calc span.filterMap (blocks.lookup ∘ fun x => x.id) = span.filterMap some :=
          List.filterMap_congr hspan
      _ = span := List.filterMap_some
  unfold Replica.activated
  rw [List.filterMap_append, hback, List.foldl_append]

section Recorded

variable {lock : Block} (h : Mirrors E n₁ J done m)
  (hknown : qc.nodeID = noID ∨ qc.nodeID ∈ m.blocks)

include h hknown

theorem certified_concat : ∀ x ∈ J.certs ++ [qc], x.nodeID = noID ∨ x.nodeID ∈ m.blocks :=
  List.forall_mem_append.mpr ⟨h.certified, List.forall_mem_singleton.mpr hknown⟩

variable (hlock : m.blocks.lookup lock.id = some lock)

include hlock

theorem noted (hfold : (n₁.pointers E J.certs m.blocks).fold E m.blocks qc =
      { n₁.pointers E J.certs m.blocks with qcHigh := qc, lock := lock }) :
    Mirrors E n₁ (J.push (.qc qc)) done { m with qcHigh := qc, bLock := lock.id } := by
  have hptr : n₁.pointers E (J.certs ++ [qc]) m.blocks = _ := (List.foldl_concat ..).trans hfold
  exact { h with
    certified := h.certified_concat hknown
    high := hknown
    lock := by rw [Journal.push, hptr]; exact hlock
    exec := by rw [Journal.push, hptr]; exact h.exec
    raised := by rw [Journal.push, hptr]
    last := by rw [Journal.push, hptr]; simp
    tops := by rw [Journal.push, hptr]; exact h.tops }

theorem committed {gp : Block} (hgp : m.blocks.lookup gp.id = some gp)
    (hspan : ∀ x ∈ span, m.blocks.lookup x.id = some x)
    (hfold : (n₁.pointers E J.certs m.blocks).fold E m.blocks qc = {
      qcHigh := qc, lock := lock, exec := gp
      active := activation E (n₁.pointers E J.certs m.blocks).active gp }) :
    Mirrors E n₁ ((J.push (.qc qc)).push (.applied gp.id)) (done ++ span.map (·.id)) { m with
      qcHigh := qc, bLock := lock.id, bExec := gp.id
      sets := (span.foldl (activation E) (m.sets, m.epoch)).1
      epoch := (span.foldl (activation E) (m.sets, m.epoch)).2 } := by
  have hin : gp.id ∈ m.blocks := GoMap.mem_iff_lookup.mpr ⟨gp, hgp⟩
  have hptr : n₁.pointers E (J.certs ++ [qc]) m.blocks = _ := (List.foldl_concat ..).trans hfold
  have hpush : (J.push (.qc qc)).push (.applied gp.id) = {
      certs := J.certs ++ [qc], marks := J.marks ++ [gp].map (·.id)
      replayed := { J.replayed with
        recoverQCs := J.replayed.recoverQCs ++ [qc], recoverExec := gp.id } } := by
    simp [Journal.push, Replica.applyRecoveredEntry, h.mem_replayed, hin]
  rw [hpush]
  exact { h with
    certified := h.certified_concat hknown
    marked := List.forall_mem_append.mpr ⟨h.marked, List.forall_mem_singleton.mpr hin⟩
    executed := List.forall_mem_append.mpr ⟨h.executed, List.forall_mem_map.mpr fun x hx =>
      GoMap.mem_iff_lookup.mpr ⟨x, hspan x hx⟩⟩
    high := hknown
    lock := by rw [hptr]; exact hlock
    exec := by rw [hptr]; exact hgp
    raised := by rw [hptr]
    last := by rw [hptr]; simp
    tops := by
      rw [hptr, activated_append _ _ (List.forall_mem_singleton.mpr hgp), ← h.tops]
      rfl
    live := by rw [activated_append _ _ hspan, ← h.live]
    watermark := Or.inr rfl }

end Recorded

end Mirrors

/-! ## 4. Move by move

A move writes no record and leaves alone what recovery rebuilds, or it writes one, and replaying the
record does what the move did.  The exception is an adopted certificate: `qcHigh` moves without one.
-/

variable {n r n₁ m n₀ : Replica} {E : Env} {log : List PersistEntry} {done : List BlockID}

theorem persistRecordLocked_ok (hl : n.logStore = true) (hw : n.writes = []) (pe : PersistEntry) :
    n.persistRecordLocked pe = { n with out := .wrote pe .ok :: n.out } := by
  have hw' : n.writes.tail = n.writes := by rw [hw]; rfl
  simp [Replica.persistRecordLocked, Replica.persistLocked, hl, hw', Replica.emit]
  rw [hw]
  rfl

/-- The correspondence within a call: `log` and `done` are those of the calls before. -/
def Follows (E : Env) (n₁ : Replica) (log : List PersistEntry) (done : List BlockID)
    (m : Replica) : Prop :=
  Mirrors E n₁ (n₁.journal (log ++ durableOf m.out)) (done ++ executions m.out) m

theorem journal_wrote (pe : PersistEntry) (out : List Effect) :
    n₁.journal (log ++ durableOf (.wrote pe .ok :: out)) =
      (n₁.journal (log ++ durableOf out)).push pe := by
  rw [← journal_concat, List.append_assoc]
  simp [durableOf, Effect.durable]

theorem Mirrors.wrote {pe : PersistEntry}
    (h : Mirrors E n₁ ((n₁.journal (log ++ durableOf out)).push pe) (done ++ executions out) m) :
    Follows E n₁ log done { m with out := .wrote pe .ok :: out } := by
  unfold Follows
  rw [journal_wrote]
  exact { h with }

@[inherit_doc Mirrors.wrote]
theorem Mirrors.persist {pe : PersistEntry} (hout : m.out = out)
    (h : Mirrors E n₁ ((n₁.journal (log ++ durableOf out)).push pe) (done ++ executions out) m) :
    Follows E n₁ log done (m.persistRecordLocked pe) := by
  rw [persistRecordLocked_ok h.logStore h.writes, hout]
  exact h.wrote

theorem heightOf_of_lookup {id : BlockID} {b : Block} (h : n.blocks.lookup id = some b) :
    n.heightOf id = b.height := by
  unfold Replica.heightOf
  rw [h]

namespace Follows

variable {E : Env} {S : Scope} {n₁ m m' : Replica} {log : List PersistEntry} {done : List BlockID}

theorem span_lookup (ht : Grown m.blocks) {gp : Block} (hgp : m.blocks.lookup gp.id = some gp) :
    ∀ x ∈ m.span gp, m.blocks.lookup x.id = some x := by
  intro x hx
  have hpath : x ∈ m.path gp := by
    exact (List.takeWhile_sublist _).subset (List.mem_reverse.mp hx)
  rcases ht.mem_walk _ gp x hpath with rfl | h
  · exact hgp
  · exact h

section Certificate

variable {qc : QC} {c parent : Block} (h : Follows E n₁ log done m)
  (hknown : qc.nodeID = noID ∨ qc.nodeID ∈ m.blocks) (hlt : m.qcHigh.height < qc.height)

/-- The pointers recovery has before the call, and the lock it then takes for `parent`. -/
def before (E : Env) (n₁ : Replica) (log : List PersistEntry) (m : Replica) : Pointers :=
  n₁.pointers E (n₁.journal (log ++ durableOf m.out)).certs m.blocks

@[inherit_doc before]
def lockOn (E : Env) (n₁ : Replica) (log : List PersistEntry) (m : Replica) (parent : Block) :
    Block :=
  if parent.height > (before E n₁ log m).lock.height then parent else (before E n₁ log m).lock

include h

theorem before_lt (hlt : m.qcHigh.height < qc.height) :
    (before E n₁ log m).qcHigh.height < qc.height :=
  lt_of_le_of_lt (Mirrors.raised h) hlt

theorem lookup_id {id : BlockID} {b : Block} (hb : m.blocks.lookup id = some b) :
    m.blocks.lookup b.id = some b := by
  rw [(Mirrors.tree h id b hb).1]
  exact hb

theorem lookup_lockOn {id : BlockID} (hp : m.blocks.lookup id = some parent) :
    m.blocks.lookup (lockOn E n₁ log m parent).id = some (lockOn E n₁ log m parent) := by
  unfold lockOn
  by_cases hhigh : parent.height > (before E n₁ log m).lock.height
  · rw [if_pos hhigh]
    exact h.lookup_id hp
  · rw [if_neg hhigh]
    exact h.lookup_id (Mirrors.lock h)

theorem raiseLock_eq (parent : Block) (out : List Effect) :
    { m with qcHigh := qc, out := out }.raiseLock parent =
      { m with qcHigh := qc, out := out, bLock := (lockOn E n₁ log m parent).id } := by
  have hheight : { m with qcHigh := qc, out := out }.heightOf m.bLock =
      (before E n₁ log m).lock.height := heightOf_of_lookup (Mirrors.lock h)
  have hid : (before E n₁ log m).lock.id = m.bLock := (Mirrors.tree h _ _ (Mirrors.lock h)).1
  unfold Replica.raiseLock lockOn
  rw [hheight]
  split
  · rfl
  · rw [hid]

include hknown hlt

theorem unlinked (hno : ∀ c, m.blocks.lookup qc.nodeID = some c → ∀ parent,
      m.blocks.lookup c.parent = some parent → oneChainedBy parent c = false) :
    Follows E n₁ log done { m with qcHigh := qc, out := .wrote (.qc qc) .ok :: m.out } := by
  have hlock := Mirrors.noted h hknown (h.lookup_id (Mirrors.lock h))
    (Pointers.fold_unlinked (h.before_lt hlt) hno)
  rw [(Mirrors.tree h _ _ (Mirrors.lock h)).1] at hlock
  exact hlock.wrote

variable (hc : m.blocks.lookup qc.nodeID = some c) (hp : m.blocks.lookup c.parent = some parent)
  (hone : oneChainedBy parent c = true)

include hc hp hone

theorem twoChain (hno : ∀ gp, m.blocks.lookup parent.parent = some gp →
      oneChainedBy gp parent = true → gp.height ≤ m.heightOf m.bExec) :
    Follows E n₁ log done
      ({ m with qcHigh := qc, out := .wrote (.qc qc) .ok :: m.out }.raiseLock parent) := by
  rw [heightOf_of_lookup (Mirrors.exec h)] at hno
  rw [h.raiseLock_eq]
  exact (Mirrors.noted h hknown (h.lookup_lockOn hp)
    (Pointers.fold_lock (h.before_lt hlt) hc hp hone hno)).wrote

theorem threeChain {gp : Block} (hg : m.blocks.lookup parent.parent = some gp)
    (htwo : oneChainedBy gp parent = true) (hhigh : m.heightOf m.bExec < gp.height) :
    Follows E n₁ log done (({ m with qcHigh := qc, out := .wrote (.qc qc) .ok :: m.out }.raiseLock
      parent).commitUpToLocked E gp) := by
  have hgp := h.lookup_id hg
  have hne : gp.id ≠ m.bExec := by
    intro hid
    rw [← hid, heightOf_of_lookup hgp] at hhigh
    exact lt_irrefl _ hhigh
  rw [heightOf_of_lookup (Mirrors.exec h)] at hhigh
  rw [h.raiseLock_eq]
  obtain ⟨a, w, o, hcommit, hkey⟩ := commitUpToLocked_eq (E := E) { m with
    qcHigh := qc, bLock := (lockOn E n₁ log m parent).id, out := .wrote (.qc qc) .ok :: m.out } hne
  obtain ⟨hd, hx⟩ := journal_span hkey
  have hdone := Mirrors.committed h hknown (h.lookup_lockOn hp) hgp
    (span_lookup (Mirrors.tree h) hgp)
    (Pointers.fold_commit (h.before_lt hlt) hc hp hone hg htwo hhigh)
  rw [hcommit]
  refine Mirrors.persist rfl ?_
  rw [hd, journal_wrote, hx, ← List.append_assoc]
  exact { hdone with }

end Certificate

/-- **Folding a certificate**: the live chain rule does what recovery will do. -/
theorem fold (h : Follows E n₁ log done m) {qc : QC}
    (hknown : qc.nodeID = noID ∨ qc.nodeID ∈ m.blocks) :
    (m.onNewQCLocked E qc).panicked = true ∨ Follows E n₁ log done (m.onNewQCLocked E qc) := by
  rcases onNewQCLocked_cases (E := E) m qc with heq | ⟨_, hlt, hraise⟩
  · rw [heq]
    exact Or.inr h
  have hlog : m.logStore = true := Mirrors.logStore h
  have hwrites : m.writes = [] := Mirrors.writes h
  rw [persistRecordLocked_ok (n := { m with qcHigh := qc }) hlog hwrites] at hraise
  rcases hraise with ⟨hnone, heq⟩ | ⟨c, hc, heq⟩
  · rw [heq]
    exact Or.inr (h.unlinked hknown hlt fun c hc => absurd (hnone.symm.trans hc) (by simp))
  rw [heq]
  rcases chainRule_cases (E := E)
      { m with qcHigh := qc, out := .wrote (.qc qc) .ok :: m.out } c with
    ⟨hpn, _, hm⟩ | ⟨_, _, hm⟩ | ⟨p, hpl, hone, hm⟩ | ⟨p, hpl, hone, hno, hm⟩ |
    ⟨p, gp, hpl, hone, hgl, htwo, hhigh, hm⟩
  · rw [hm]
    refine Or.inr (h.unlinked hknown hlt fun c' hc' parent hparent => ?_)
    obtain rfl := Option.some.inj (hc.symm.trans hc')
    exact absurd (hpn.symm.trans hparent) (by simp)
  · rw [hm]
    exact Or.inl rfl
  · rw [hm]
    refine Or.inr (h.unlinked hknown hlt fun c' hc' parent hparent => ?_)
    obtain rfl := Option.some.inj (hc.symm.trans hc')
    obtain rfl := Option.some.inj (hpl.symm.trans hparent)
    exact hone
  · rw [hm]
    exact Or.inr (h.twoChain hknown hlt hc hpl hone hno)
  · rw [hm]
    exact Or.inr (h.threeChain hknown hlt hc hpl hone hgl htwo hhigh)

theorem record (h : Follows E n₁ log done m) {b : Block} (hs : b.Sound) (hnew : b.id ∉ m.blocks)
    (hp : b.parent = noID ∨ b.parent ∈ m.blocks) : Follows E n₁ log done (m.record b) :=
  (Mirrors.insert h hs hnew hp).persist rfl

theorem sign (h : Follows E n₁ log done m) (x : Signable) :
    Follows E n₁ log done (m.sign E x).1 :=
  { show Mirrors E n₁ _ _ m from h with }

theorem vote (h : Follows E n₁ log done m) (b : Block) :
    Follows E n₁ log done (m.castVote E b).1 := by
  unfold Replica.castVote
  split
  · exact h
  next hv =>
    have hvoted : Follows E n₁ log done
        ({ m with vHeight := b.height }.persistRecordLocked (.voted b.height)) :=
      (Mirrors.voted h (by omega)).persist rfl
    dsimp only
    split
    · exact hvoted
    · exact hvoted.sign _

theorem move (hlink : S.linked) (hfresh : S.fresh)
    (h : m.panicked = true ∨ Follows E n₁ log done m) (hm : Move E S m m') :
    m'.panicked = true ∨ Follows E n₁ log done m' := by
  rcases h with hpan | h
  · exact Or.inl (hm.onward.panicked hpan)
  cases hm with
  | aside ha =>
    right
    obtain ⟨hd, hx⟩ := journal_span (s := []) ha.journal
    unfold Follows
    rw [hd, hx, List.map_nil, List.append_nil]
    exact Mirrors.aside h ha
  | insert b _ hs hnew _ hp => exact Or.inr (h.record hs hnew (hp hlink))
  | own cmd _ hready hnew =>
    right
    refine Follows.sign (h.record ⟨rfl, m.qcHigh, rfl, hready⟩ (hnew hfresh) ?_) _
    change m.head = noID ∨ m.head ∈ m.blocks
    rw [← hready]
    exact Mirrors.high h
  | fold qc _ hknown => exact h.fold (hknown hlink)
  | adopt qc _ hknown hlt => exact Or.inr (Mirrors.adopt h hknown hlt)
  | vote b _ _ _ => exact Or.inr (h.vote b)
  | collect vc _ => exact Or.inr { show Mirrors E n₁ _ _ m from h with }

end Follows

/-! ## 5. Recovery -/

/-- A fresh replica takes the records of a log, then finishes recovery. -/
def Setup.rebuild (E : Env) (K : Setup) (decode : Bytes → Option PersistEntry)
    (records : List Record) : Option Replica :=
  match K.fresh E with
  | .error _ => none
  | .ok n =>
    match records.foldlM (fun n rec => n.applyRecoveredRecord decode rec) n with
    | none => none
    | some n => some ({ n with logStore := K.durable }.finishRecovery E)

/-- The records of the engine among `records` decode to `log`. -/
def Decodes (decode : Bytes → Option PersistEntry) (records : List Record)
    (log : List PersistEntry) : Prop :=
  (records.filter fun rec => rec.op = Op.hotStuff).map (fun rec => decode rec.data) = log.map some

theorem foldlM_applyRecoveredRecord {decode : Bytes → Option PersistEntry} :
    ∀ (records : List Record) (log : List PersistEntry) (n : Replica),
    Decodes decode records log →
    records.foldlM (fun n rec => n.applyRecoveredRecord decode rec) n = some (n.replay log)
  | [], log, n, h => by
    obtain rfl : log = [] := by simpa [Decodes] using h.symm
    rfl
  | rec :: records, log, n, h => by
    unfold Decodes at h
    rw [List.foldlM_cons]
    unfold Replica.applyRecoveredRecord
    by_cases hop : rec.op = Op.hotStuff
    · rw [List.filter_cons_of_pos (by simpa using hop)] at h
      cases log with
      | nil => exact absurd h (by simp)
      | cons pe log =>
        simp only [List.map_cons, List.cons.injEq] at h
        rw [if_neg (not_not.mpr hop), h.1]
        exact foldlM_applyRecoveredRecord records log _ h.2
    · rw [List.filter_cons_of_neg (by simpa using hop)] at h
      rw [if_pos hop]
      exact foldlM_applyRecoveredRecord records log n h

theorem markPathApplied_eq (b : Block) (n : Replica) :
    ∃ a w o, n.markPathApplied b = { n with applied := a, notify := w, out := o } :=
  foldl_markApplied_eq _ _

/-- `finishRecoveryLocked` when the watermark adds nothing: an unknown certificate is given up. -/
theorem finishRecovery_eq {p : Pointers} (hp : r.pointers E r.recoverQCs r.blocks = p)
    (hwm : r.recoverExec = noID ∨ r.blocks.lookup r.recoverExec = some p.exec) :
    ∃ h a w o x, r.finishRecovery E = { r with
        sets := p.active.1, epoch := p.active.2
        qcHigh := if p.qcHigh.nodeID ∈ r.blocks then p.qcHigh else r.qcHigh
        head := h, bLock := p.lock.id, bExec := x, applied := a, notify := w, out := o
        recoverQCs := [], recoverExec := noID } ∧
      (p.qcHigh.nodeID ∈ r.blocks → x = p.exec.id) := by
  choose a w o hmark using markPathApplied_eq
  have hloop : r.recoverQCs.foldl (Replica.recoverQC E)
        ⟨r, r.qcHigh, r.blockAt r.bLock, r.blockAt r.bExec⟩ =
      ⟨{ r with sets := p.active.1, epoch := p.active.2 }, p.qcHigh, p.lock, p.exec⟩ :=
    hp ▸ Pointers.foldl_recoverQC_within E r r.recoverQCs r.startPointers
  unfold Replica.finishRecovery
  rw [hloop]
  dsimp only
  by_cases hno : r.recoverExec = noID
  · rw [if_neg (show ¬ r.recoverExec ≠ noID from not_not.mpr hno), hmark]
    exact ⟨_, _, _, _, _, rfl, fun hin => by simp [hin]⟩
  · rw [if_pos hno, hwm.resolve_left hno, hmark]
    exact ⟨_, _, _, _, _, rfl, fun hin => by simp [hin]⟩

theorem Mirrors.recovered {durable : Bool} (h : Mirrors E n₁ (n₁.journal log) done m)
    (hn : Newborn n₁) (hr : r = { n₁.replay log with logStore := durable }.finishRecovery E) :
    r.bLock = m.bLock ∧ r.vHeight = m.vHeight ∧
      (r.sets, r.epoch) = n₁.activated E m.blocks (watermarks log) ∧
      r.qcHigh = (if ((certificates log).getLastD n₁.qcHigh).nodeID ∈ m.blocks
        then (certificates log).getLastD n₁.qcHigh else n₁.qcHigh) ∧
      (((certificates log).getLastD n₁.qcHigh).nodeID ∈ m.blocks → r.bExec = m.bExec) := by
  obtain ⟨B, v, x, hsame⟩ : ∃ B v x, n₁.replay log = { n₁ with
      blocks := B, vHeight := v, recoverQCs := certificates log, recoverExec := x } :=
    ⟨_, _, _, by conv_lhs => rw [replay_eq n₁ log, hn.recoverQCs, List.nil_append]⟩
  have hB := h.blocks
  have hv := h.vHeight
  have hx := h.watermark
  have hin := h.mem_replayed
  rw [show (n₁.journal log).replayed = _ from hsame] at hB hv hx hin
  rw [hsame] at hr
  -- both start from genesis, and the trees agree
  have hat : ∀ id, id = genesisID → (B.lookup id).getD default = n₁.blockAt id := by
    rintro id rfl
    rw [hB, h.root _ hn.genesis_mem]
    rfl
  have hstart : { n₁ with
      blocks := B, vHeight := v, recoverQCs := certificates log, recoverExec := x
      logStore := durable }.startPointers = n₁.startPointers := by
    unfold Replica.startPointers
    congr 1
    · exact hat _ hn.bLock
    · exact hat _ hn.bExec
  obtain ⟨_, a, w, o, y, hfin, hy⟩ := finishRecovery_eq (E := E)
    (r := { n₁ with
      blocks := B, vHeight := v, recoverQCs := certificates log, recoverExec := x
      logStore := durable }) (p := n₁.pointers E (certificates log) m.blocks)
    (by
      unfold Replica.pointers
      rw [hstart]
      exact Pointers.foldl_fold_grow h.closed (fun id _ => hB id) _ _ h.certified)
    (hx.imp_right fun hx => by rw [hx]; exact (hB _).trans h.exec)
  rw [hfin] at hr
  subst hr
  rw [← show _ = (certificates log).getLastD n₁.qcHigh from h.last]
  refine ⟨(h.tree _ _ h.lock).1, hv, h.tops, if_congr (hin _) rfl rfl, fun hknown => ?_⟩
  exact (hy ((hin _).mpr hknown)).trans (h.tree _ _ h.exec).1

theorem Mirrors.last_known (h : Mirrors E n₁ (n₁.journal log) done m) (hn : Newborn n₁)
    (hzero : m.qcHigh.height = 0) : ((certificates log).getLastD n₁.qcHigh).nodeID ∈ m.blocks := by
  have hlow : (n₁.pointers E (certificates log) m.blocks).qcHigh.height ≤ _ := h.raised
  have hlast : (n₁.pointers E (certificates log) m.blocks).qcHigh = _ := h.last
  rw [← show _ = (certificates log).getLastD n₁.qcHigh from hlast]
  rcases Pointers.foldl_fold_qcHigh E m.blocks (certificates log) n₁.startPointers with heq | hlt
  · change (n₁.pointers E (certificates log) m.blocks).qcHigh = n₁.qcHigh at heq
    rw [heq, hn.qcHigh.1, GoMap.mem_iff_lookup, h.root _ hn.genesis_mem]
    exact GoMap.mem_iff_lookup.mp hn.genesis_mem
  · change _ < (n₁.pointers E (certificates log) m.blocks).qcHigh.height at hlt
    omega

/-! ## 6. Every live run -/

/-- The state a crash must not lose: what `qcHigh` certifies, the lock, the executed prefix, the
vote height, and the configuration.  The votes inside `qcHigh` are not compared. -/
structure SameState (r n : Replica) : Prop where
  certified : r.qcHigh.nodeID = n.qcHigh.nodeID
  high : r.qcHigh.height = n.qcHigh.height
  bLock : r.bLock = n.bLock
  bExec : r.bExec = n.bExec
  vHeight : r.vHeight = n.vHeight
  epoch : r.epoch = n.epoch
  sets : ∀ e, r.sets.lookup e = n.sets.lookup e

/-- What is activated, from the sets and the epoch of `n₀` on, by the blocks the commits of a host
ended with, and by all blocks it executed. -/
def Host.ends (E : Env) (n₀ : Replica) (s : Host) : GoMap Nat ValidatorSet × Nat :=
  n₀.activated E s.node.blocks (watermarks s.log)

@[inherit_doc Host.ends]
def Host.activations (E : Env) (n₀ : Replica) (s : Host) : GoMap Nat ValidatorSet × Nat :=
  n₀.activated E s.node.blocks (executions s.trace)

/-- **What recovery depends on**, read off the state before the crash and the log.  The recovered
replica does not occur in it. -/
structure Host.Rebuildable (E : Env) (n₀ : Replica) (s : Host) : Prop where
  /-- `qcHigh` was last raised by a recorded certificate, of a block in the tree -/
  recorded : ((certificates s.log).getLastD n₀.qcHigh).nodeID = s.node.qcHigh.nodeID ∧
    ((certificates s.log).getLastD n₀.qcHigh).height = s.node.qcHigh.height
  known : s.node.qcHigh.nodeID ∈ s.node.blocks
  /-- the executed blocks activate what the last blocks of the commits activate -/
  epoch : (s.ends E n₀).2 = (s.activations E n₀).2
  sets : ∀ e, (s.ends E n₀).1.lookup e = (s.activations E n₀).1.lookup e

/-- A call of a host whose writes all succeed, in a batch without gaps, with a new block if it
proposes. -/
def Host.Recording (E : Env) (s : Host) : Event → Prop
  | .call inp ctx writes =>
    writes = [] ∧ (s.ready writes).GapFreeBatch E ctx inp ∧ (s.ready writes).FreshProposal inp
  | _ => False

/-- The host as it runs on such calls. -/
def Host.recordingMachine (E : Env) (K : Setup) : Machine Host Event where
  enabled := fun s e => (Host.machine E K).enabled s e ∧ s.Recording E e
  act := (Host.machine E K).act

theorem executions_append (out trace : List Effect) :
    executions (out ++ trace) = executions trace ++ executions out := by
  simp [executions, execsOf, List.filterMap_append]

theorem Mirrors.newborn (hn : Newborn n₀) :
    Mirrors E n₀ (n₀.journal []) [] { n₀ with logStore := true, writes := [] } := by
  have hgenesis : n₀.blocks.lookup genesisID = some (n₀.blockAt genesisID) := by
    obtain ⟨g, hg⟩ := GoMap.mem_iff_lookup.mp hn.genesis_mem
    simp [Replica.blockAt, hg]
  exact {
    logStore := rfl
    writes := rfl
    tree := hn.grown
    closed := by
      obtain ⟨g, hg, hb⟩ := hn.tree
      intro id b hl
      rw [hb, GoMap.lookup_insert_of] at hl
      split at hl
      · obtain rfl := Option.some.inj hl
        exact Or.inl hg.parent_eq
      · exact absurd hl (by simp [AList.lookup_empty])
    root := fun _ _ => rfl
    certified := by simp [Replica.journal, certificates]
    marked := by simp [Replica.journal, watermarks]
    executed := by simp
    high := Or.inr (hn.qcHigh.1 ▸ hn.genesis_mem)
    lock := by
      change n₀.blocks.lookup n₀.bLock = some (n₀.blockAt n₀.bLock)
      rw [hn.bLock]
      exact hgenesis
    exec := by
      change n₀.blocks.lookup n₀.bExec = some (n₀.blockAt n₀.bExec)
      rw [hn.bExec]
      exact hgenesis
    raised := le_refl _
    last := rfl
    tops := rfl
    live := rfl
    blocks := fun _ => rfl
    vHeight := rfl
    watermark := Or.inl hn.recoverExec }

/-- **In every run the live replica mirrors its log.** -/
theorem Host.mirrors {K : Setup} {s : Host} (h₀ : K.fresh E = .ok n₀) (hdurable : K.durable = true)
    (hrun : (Host.recordingMachine E K).Steps (Host.start K n₀) s) :
    s.node.panicked = true ∨ Mirrors E n₀ (n₀.journal s.log) (executions s.trace) s.node ∧ ParkedSound s.node := by
  have hn := Newborn.fresh h₀
  refine hrun.invariant (P := fun s => s.node.panicked = true ∨
    Mirrors E n₀ (n₀.journal s.log) (executions s.trace) s.node ∧ ParkedSound s.node) ?_ ?_
  · rintro s e hs ⟨hen, hrec⟩
    cases e with
    | call inp ctx writes =>
      obtain ⟨rfl, hgap, hfresh⟩ := hrec
      have halive : s.node.panicked = false := hen
      obtain ⟨hM, hP⟩ := hs.resolve_left (by rw [halive]; simp)
      have hready : Follows E n₀ s.log (executions s.trace) (s.ready []) := by
        change Mirrors E n₀ (n₀.journal (s.log ++ [])) (executions s.trace ++ []) _
        rw [List.append_nil, List.append_nil]
        exact { hM with writes := rfl }
      obtain ⟨hmoves, hP'⟩ := handle_moves (E := E) (C := ctx) (n := s.ready []) (hP.congr rfl) inp
      have hend := hmoves.invariant
        (P := fun m => m.panicked = true ∨ Follows E n₀ s.log (executions s.trace) m)
        (fun _ _ h hm => Follows.move hgap hfresh h hm) (Or.inr hready)
      refine hend.imp_right fun h => ⟨?_, hP'⟩
      change Mirrors E n₀ (n₀.journal (s.log ++ durableOf ((s.ready []).handle E ctx inp).out))
        (executions (((s.ready []).handle E ctx inp).out ++ s.trace)) _
      rw [executions_append]
      exact h
    | gc => exact absurd hrec (by simp [Host.Recording])
    | writeCheckpoint => exact absurd hrec (by simp [Host.Recording])
    | rotate => exact absurd hrec (by simp [Host.Recording])
    | restart => exact absurd hrec (by simp [Host.Recording])
  · exact Or.inr ⟨{ Mirrors.newborn hn with logStore := hdurable, writes := hn.writes },
      hn.parkedSound.congr rfl⟩

/-- **A recovered replica is the one that crashed exactly when the run can be rebuilt.**  `records`
are all records of the log, `decode` is the JSON decoder. -/
theorem recovery_same_iff {E : Env} {K : Setup} {n₀ : Replica} {s : Host}
    {decode : Bytes → Option PersistEntry} {records : List Record} (h₀ : K.fresh E = .ok n₀)
    (hdurable : K.durable = true)
    (hrun : (Host.recordingMachine E K).Steps (Host.start K n₀) s)
    (halive : s.node.panicked = false) (hdecode : Decodes decode records s.log) :
    ∃ r, K.rebuild E decode records = some r ∧ (SameState r s.node ↔ s.Rebuildable E n₀) := by
  have hn := Newborn.fresh h₀
  obtain ⟨hM, _⟩ := (Host.mirrors h₀ hdurable hrun).resolve_left (by simp [halive])
  obtain ⟨r, hr⟩ : ∃ r, r = { n₀.replay s.log with logStore := K.durable }.finishRecovery E :=
    ⟨_, rfl⟩
  refine ⟨r, ?_, ?_⟩
  · simp only [Setup.rebuild, h₀, foldlM_applyRecoveredRecord records s.log n₀ hdecode, hr]
  obtain ⟨hlock, hvote, hends, hhigh, hexec⟩ := hM.recovered hn hr
  change _ = s.ends E n₀ at hends
  have hlive : (s.node.sets, s.node.epoch) = s.activations E n₀ := hM.live
  constructor
  · intro h
    have hin : ((certificates s.log).getLastD n₀.qcHigh).nodeID ∈ s.node.blocks := by
      by_contra hout
      rw [if_neg hout] at hhigh
      exact hout (hM.last_known hn (by rw [← h.high, hhigh, hn.qcHigh.2]))
    rw [if_pos hin] at hhigh
    refine ⟨⟨hhigh ▸ h.certified, hhigh ▸ h.high⟩, ?_, ?_, fun e => ?_⟩
    · rw [← h.certified, hhigh]
      exact hin
    · rw [← hends, ← hlive]
      exact h.epoch
    · rw [← hends, ← hlive]
      exact h.sets e
  · intro h
    have hin : ((certificates s.log).getLastD n₀.qcHigh).nodeID ∈ s.node.blocks :=
      h.recorded.1 ▸ h.known
    rw [if_pos hin] at hhigh
    refine ⟨hhigh ▸ h.recorded.1, hhigh ▸ h.recorded.2, hlock, hexec hin, hvote, ?_, fun e => ?_⟩
    · have := h.epoch
      rw [← hends, ← hlive] at this
      exact this
    · have := h.sets e
      rw [← hends, ← hlive] at this
      exact this

instance (E : Env) (s : Host) (e : Event) : Decidable (s.Recording E e) :=
  match e with
  | .call inp ctx writes => inferInstanceAs (Decidable
      (writes = [] ∧ (s.ready writes).GapFreeBatch E ctx inp ∧
        (s.ready writes).FreshProposal inp))
  | .gc | .writeCheckpoint | .rotate | .restart => inferInstanceAs (Decidable False)

instance (E : Env) (K : Setup) (s : Host) (e : Event) :
    Decidable ((Host.recordingMachine E K).enabled s e) :=
  inferInstanceAs (Decidable (s.Enabled e ∧ s.Recording E e))

namespace Script

/-- Records of the engine for a log, and the table that decodes them. -/
def recordsOf (log : List PersistEntry) : List Record :=
  (List.range log.length).map fun i => { op := .hotStuff, data := List.replicate i 0 }

@[inherit_doc recordsOf]
def decodeOf (log : List PersistEntry) (data : Bytes) : Option PersistEntry := log[data.length]?

/-- `L1` plays a script. -/
def following (script : List (Host → Event)) : Host :=
  (Host.recordingMachine plainEnv (setup "L1" 1)).play (boot plainEnv (setup "L1" 1)) script

/-- `L1` is rebuilt from the log of a host. -/
def recovered (s : Host) : Option Replica :=
  (setup "L1" 1).rebuild plainEnv (decodeOf s.log) (recordsOf s.log)

end Script

/-- Three proposals are rebuilt, the certificate of the second block included. -/
theorem recovery_same_following :
    (Script.following (Following.normal.take 3)).node.qcHigh = Following.qc2 ∧
      ∃ r, Script.recovered (Script.following (Following.normal.take 3)) = some r ∧
        SameState r (Script.following (Following.normal.take 3)).node := by
  obtain ⟨r, hr, hsame⟩ := recovery_same_iff (E := plainEnv) (K := Script.setup "L1" 1)
    (show _ = Except.ok (Script.opened plainEnv (Script.setup "L1" 1)) from rfl) rfl
    (Machine.steps_of_plays (Following.normal.take 3) _ (by decide +kernel)) (by decide +kernel)
    (show Decodes (Script.decodeOf (Script.following (Following.normal.take 3)).log)
      (Script.recordsOf (Script.following (Following.normal.take 3)).log) _ by
        unfold Decodes; decide +kernel)
  have hactive : (Script.following (Following.normal.take 3)).ends plainEnv
        (Script.opened plainEnv (Script.setup "L1" 1)) =
      (Script.following (Following.normal.take 3)).activations plainEnv
        (Script.opened plainEnv (Script.setup "L1" 1)) := by decide +kernel
  exact ⟨by decide +kernel, r, hr, hsame.mpr ⟨by decide +kernel, by decide +kernel,
    congrArg (·.2) hactive, fun e => congrArg (·.1.lookup e) hactive⟩⟩

/-- **An adopted certificate is lost.**  `L1` takes over with the certificate of `b2`; rebuilt, it
has that of `b1`. -/
theorem recovery_same_fails :
    (Host.recordingMachine plainEnv (Script.setup "L1" 1)).Steps
        (Script.boot plainEnv (Script.setup "L1" 1)) (Script.following Following.takeOver) ∧
      (Script.following Following.takeOver).node.panicked = false ∧
      (Script.following Following.takeOver).node.qcHigh = Following.qc2 ∧
      ∃ r, Script.recovered (Script.following Following.takeOver) = some r ∧
        r.qcHigh = Following.qc1 ∧ ¬ SameState r (Script.following Following.takeOver).node := by
  have hhigh : (Script.recovered (Script.following Following.takeOver)).map (·.qcHigh) =
      some Following.qc1 := by decide +kernel
  obtain ⟨r, hr, hqc⟩ := Option.map_eq_some_iff.mp hhigh
  refine ⟨Machine.steps_of_plays _ _ (by decide +kernel), by decide +kernel, by decide +kernel, r,
    hr, hqc, fun h => ?_⟩
  have := h.certified
  rw [hqc] at this
  exact absurd this (by decide +kernel)

end Cachey.HotStuff
