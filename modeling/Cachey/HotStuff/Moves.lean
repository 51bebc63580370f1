/-
# What a call of the engine can do

Every entry point of a replica is a sequence of a few primitive MOVES: a block enters the tree, a
certificate is folded by `onNewQCLocked`, a certificate is adopted by a view change, a vote is
signed, or nothing of consequence happens.  `handle_moves` decomposes every call, for ANY state
and ANY message; the invariants of one replica are then shown move by move.

Which blocks a call may insert and which certificates it may fold or adopt is fixed by the state
it starts in: its `Scope`.  The one thing the code does not guarantee by itself is that a block of
a batch finds its parent in the tree: a batch goes on after a block the epoch gate refused.  A
scope is `linked` when this does not happen.
-/
import Cachey.HotStuff.Handling

namespace Cachey.HotStuff

/-! ## 1. Sound blocks -/

/-- A block as the handlers admit it: its id is its digest, and its justification certifies the
direct parent. -/
structure Block.Sound (b : Block) : Prop where
  addressed : b.id = blockID b.view b.height b.parent b.cmd
  certifies : ∃ qc, b.justify = some qc ∧ qc.nodeID = b.parent

namespace Block.Sound

variable {b : Block}

theorem id_height (h : b.Sound) : b.id.height = b.height := by
  rw [h.addressed]; rfl

theorem id_parent (h : b.Sound) : b.id.parent = b.parent := by
  rw [h.addressed]; rfl

theorem id_ne_raw (h : b.Sound) (text : String) : b.id ≠ .raw text := by
  rw [h.addressed]; exact BlockID.noConfusion

theorem ancestors (h : b.Sound) : b.id.ancestors = b.id :: b.parent.ancestors := by
  rw [h.addressed]; rfl

end Block.Sound

/-! ## 2. The scope of a call -/

namespace Replica

/-- The parked blocks that hang below one of `roots`: released if these are inserted. -/
def below (n : Replica) (roots : List BlockID) : List Block :=
  n.pendingBlocks.values.flatten.filter fun b => roots.any (· ∈ b.parent.ancestors)

/-- The blocks a call may insert. -/
def incoming (E : Env) (C : Ctx) (inp : Input) (n : Replica) : List Block :=
  match inp with
  | .deliver (.proposal p) =>
    if n.accepts E p then p.block :: n.below [p.block.id] else []
  | .deliver (.block bm) =>
    if n.takesBlock E C.now bm then bm.block :: n.below [bm.block.id] else []
  | .deliver (.blockBatch bb) =>
    if n.takesBatch E C.now bb then bb.blocks ++ n.below (bb.blocks.map (·.id)) else []
  | _ => []

/-- One more vote for `id` in the epoch's set completes a quorum. -/
def completes (n : Replica) (id : BlockID) (epoch : Nat) : Bool :=
  match n.sets.lookup epoch with
  | none => false
  | some set => set.quorum ≤ ((n.votes.lookup id).getD ∅).len + 1

/-- The blocks whose certificates a call may form from votes. -/
def forming (inp : Input) (n : Replica) : List BlockID :=
  match inp with
  | .propose cmd =>
    if n.id = n.leader ∧ n.active ∧ n.qcHigh.nodeID = n.head ∧
        n.completes (n.nextBlock cmd).id n.epoch then [(n.nextBlock cmd).id] else []
  | .deliver (.vote v) =>
    match n.blocks.lookup v.nodeID with
    | none => []
    | some blk => if n.id = n.leader ∧ n.completes v.nodeID blk.epoch then [v.nodeID] else []
  | _ => []

/-- The awaited base, when one of `blocks` is it and its certificate is still above `qcHigh`. -/
def awaiting (n : Replica) (blocks : List Block) : List QC :=
  match n.wantBase with
  | none => []
  | some high =>
    if n.qcHigh.height < high.height ∧ high.nodeID ∈ blocks.map (·.id) then [high] else []

/-- The certificates a call may adopt as a base. -/
def adoptions (E : Env) (C : Ctx) (inp : Input) (n : Replica) : List QC :=
  match inp with
  | .startViewChange =>
    match n.announce E with
    | none => []
    | some (m, vc) => if m.id = m.leader then (m.addVC vc).adopting E C vc.view else []
  | .deliver (.viewChange vc) =>
    if n.counts E vc then (n.addVC vc).adopting E C vc.view else []
  | _ => n.awaiting (n.incoming E C inp)

end Replica

/-- No block of a batch is handed on while the block below it was refused. -/
def Replica.gapless (E : Env) : List Block → Replica → Bool
  | b :: c :: rest, n =>
    (b.id ∈ n.blocks || n.epochGate E b) &&
      Replica.gapless E (c :: rest) (insertBatchBlock E (n, []) b).1
  | _, _ => true

/-- The batch of an input, if it is accepted, has no gaps. -/
def Replica.GapFreeBatch (E : Env) (C : Ctx) (inp : Input) (n : Replica) : Prop :=
  match inp with
  | .deliver (.blockBatch bb) =>
    n.takesBatch E C.now bb = true → Replica.gapless E bb.blocks n = true
  | _ => True

/-- The block of a proposal is new: always so, unless the heights have come full circle. -/
def Replica.FreshProposal (inp : Input) (n : Replica) : Prop :=
  match inp with
  | .propose cmd => (n.nextBlock cmd).id ∉ n.blocks
  | _ => True

instance (E : Env) (C : Ctx) (inp : Input) (n : Replica) : Decidable (n.GapFreeBatch E C inp) := by
  unfold Replica.GapFreeBatch
  split <;> infer_instance

instance (inp : Input) (n : Replica) : Decidable (n.FreshProposal inp) := by
  unfold Replica.FreshProposal
  split <;> infer_instance

/-- What one call may do to the tree and to `qcHigh`. -/
structure Scope where
  /-- the blocks it may insert -/
  inserts : List Block
  /-- the block it may build -/
  owns : List Block
  /-- the blocks whose certificates it may fold -/
  folds : List BlockID
  /-- the certificates it may adopt -/
  adopts : List QC
  /-- the view changes it may store -/
  collects : List ViewChange
  /-- blocks are inserted above their parents -/
  linked : Prop
  /-- the replica's own block is new -/
  fresh : Prop

/-- The state in which a call stores a view change, and that view change. -/
def Replica.gathering (E : Env) (inp : Input) (n : Replica) : Option (Replica × ViewChange) :=
  match inp with
  | .startViewChange => (n.announce E).filter fun a => a.1.id = a.1.leader
  | .deliver (.viewChange vc) => if n.counts E vc then some (n, vc) else none
  | _ => none

/-- The block a call may build. -/
def Replica.building (inp : Input) (n : Replica) : List Block :=
  match inp with
  | .propose cmd =>
    if n.id = n.leader ∧ n.active ∧ n.qcHigh.nodeID = n.head then [n.nextBlock cmd] else []
  | _ => []

variable {n : Replica}

/-- A block that is built is the next block of an active leader whose head is certified. -/
theorem Replica.mem_building {inp : Input} {b : Block} (h : b ∈ n.building inp) :
    ∃ cmd, inp = .propose cmd ∧ b = n.nextBlock cmd ∧
      n.id = n.leader ∧ n.active = true ∧ n.qcHigh.nodeID = n.head := by
  unfold Replica.building at h
  split at h
  next cmd =>
    split at h
    next hready => exact ⟨cmd, rfl, List.mem_singleton.mp h, hready⟩
    · cases h
  · cases h

/-- The scope of a call, read off the state it starts in. -/
def Replica.scope (E : Env) (C : Ctx) (inp : Input) (n : Replica) : Scope where
  inserts := n.incoming E C inp
  owns := n.building inp
  folds := (n.incoming E C inp).map (·.parent) ++ n.forming inp
  adopts := n.adoptions E C inp
  collects := ((n.gathering E inp).map (·.2)).toList
  linked := n.GapFreeBatch E C inp
  fresh := n.FreshProposal inp

/-! ## 3. Moves -/

/-- The effects that folding a certificate never has: a vote, the record of a block or of a vote. -/
def Effect.isBallot : Effect → Bool
  | .signed (.vote _ _ _) => true
  | .wrote (.block _) _ => true
  | .wrote (.voted _) _ => true
  | _ => false

variable {e : Effect} {a b c : Replica} {E : Env} {S : Scope}

theorem Effect.isKey_of_isBallot (h : e.isBallot = true) : e.isKey = true := by
  unfold Effect.isBallot at h
  split at h <;> first | rfl | exact absurd h (by simp)

/-- The effects on the state machine and on callers: commands applied, waiters woken. -/
def Effect.isDelivery : Effect → Bool
  | .apply _ => true
  | .wake _ => true
  | _ => false

/-- A change beside the point: the view, buffers, requests and vote sets. -/
structure Aside (n n' : Replica) : Prop where
  id : n'.id = n.id
  epoch : n'.epoch = n.epoch
  sets : n'.sets = n.sets
  gcBase : n'.gcBase = n.gcBase
  blocks : n'.blocks = n.blocks
  qcHigh : n'.qcHigh = n.qcHigh
  bLock : n'.bLock = n.bLock
  bExec : n'.bExec = n.bExec
  vHeight : n'.vHeight = n.vHeight
  logStore : n'.logStore = n.logStore
  writes : n'.writes = n.writes
  applied : n'.applied = n.applied
  journal : n'.out.filter Effect.isKey = n.out.filter Effect.isKey
  deliveries : n'.out.filter Effect.isDelivery = n.out.filter Effect.isDelivery
  vcs : n'.vcs = n.vcs
  view : n.view ≤ n'.view
  panicked : n.panicked = true → n'.panicked = true

theorem Aside.of_bookkeeping {m : Replica} (n : Replica) (h : m = { n with
      view := m.view, leader := m.leader, active := m.active, freshBase := m.freshBase,
      head := m.head, pending := m.pending, pendingBlocks := m.pendingBlocks,
      fetches := m.fetches, syncSeq := m.syncSeq, syncReqs := m.syncReqs,
      vcSent := m.vcSent, votes := m.votes, qcFormed := m.qcFormed, wantBase := m.wantBase,
      panicked := m.panicked }) (hv : n.view ≤ m.view)
    (hp : n.panicked = true → m.panicked = true) : Aside n m := by
  rw [h]
  exact ⟨rfl, rfl, rfl, rfl, rfl, rfl, rfl, rfl, rfl, rfl, rfl, rfl, rfl, rfl, rfl, hv, hp⟩

theorem Aside.refl (n : Replica) : Aside n n :=
  Aside.of_bookkeeping n rfl (le_refl _) fun h => h

theorem Aside.trans (h₁ : Aside a b) (h₂ : Aside b c) : Aside a c where
  id := h₂.id.trans h₁.id
  epoch := h₂.epoch.trans h₁.epoch
  sets := h₂.sets.trans h₁.sets
  gcBase := h₂.gcBase.trans h₁.gcBase
  blocks := h₂.blocks.trans h₁.blocks
  qcHigh := h₂.qcHigh.trans h₁.qcHigh
  bLock := h₂.bLock.trans h₁.bLock
  bExec := h₂.bExec.trans h₁.bExec
  vHeight := h₂.vHeight.trans h₁.vHeight
  logStore := h₂.logStore.trans h₁.logStore
  writes := h₂.writes.trans h₁.writes
  applied := h₂.applied.trans h₁.applied
  journal := h₂.journal.trans h₁.journal
  deliveries := h₂.deliveries.trans h₁.deliveries
  vcs := h₂.vcs.trans h₁.vcs
  view := h₁.view.trans h₂.view
  panicked := fun h => h₂.panicked (h₁.panicked h)

theorem Aside.emit (n : Replica) (he : e.isKey = false) (hw : e.isDelivery = false) :
    Aside n (n.emit e) :=
  ⟨rfl, rfl, rfl, rfl, rfl, rfl, rfl, rfl, rfl, rfl, rfl, rfl,
    List.filter_cons_of_neg (by simp [he]), List.filter_cons_of_neg (by simp [hw]), rfl, le_refl _,
    fun h => h⟩

/-- A block enters the tree and is recorded. -/
def Replica.record (b : Block) (n : Replica) : Replica :=
  { n with blocks := n.blocks.insert b.id b }.persistRecordLocked (.block b)

/-- The primitive moves of a replica within a scope. -/
inductive Move (E : Env) (S : Scope) : Replica → Replica → Prop
  | aside {n n' : Replica} (h : Aside n n') : Move E S n n'
  /-- a received block passes the epoch gate -/
  | insert {n : Replica} (b : Block) (mem : b ∈ S.inserts) (sound : b.Sound)
      (new : b.id ∉ n.blocks) (gate : n.epochGate E b = true)
      (parent : S.linked → b.parent = noID ∨ b.parent ∈ n.blocks) : Move E S n (n.record b)
  /-- a leader's own block enters the tree with the leader's vote for it; no gate -/
  | own {n : Replica} (cmd : Bytes) (mem : n.nextBlock cmd ∈ S.owns)
      (ready : n.qcHigh.nodeID = n.head)
      (new : S.fresh → (n.nextBlock cmd).id ∉ n.blocks) :
      Move E S n ((n.record (n.nextBlock cmd)).sign E
        (.vote (n.nextBlock cmd).height (n.nextBlock cmd).id n.id)).1
  | fold {n : Replica} (qc : QC) (mem : qc.nodeID ∈ S.folds)
      (known : S.linked → qc.nodeID = noID ∨ qc.nodeID ∈ n.blocks) :
      Move E S n (n.onNewQCLocked E qc)
  /-- `qcHigh` is set and nothing else: see `adoptQC_eq` -/
  | adopt {n : Replica} (qc : QC) (mem : qc ∈ S.adopts) (known : qc.nodeID ∈ n.blocks)
      (lt : n.qcHigh.height < qc.height) : Move E S n { n with qcHigh := qc }
  | vote {n : Replica} (b : Block) (mem : b ∈ S.inserts) (sound : b.Sound)
      (known : b.id ∈ n.blocks) : Move E S n (n.castVote E b).1
  /-- a view change is stored, in place of an earlier one of its sender -/
  | collect {n : Replica} (vc : ViewChange) (mem : vc ∈ S.collects) : Move E S n
      { n with vcs := n.vcs.insert vc.view ((n.vcsOf vc.view).insert vc.sender vc) }

def Moves (E : Env) (S : Scope) : Replica → Replica → Prop := Relation.ReflTransGen (Move E S)

theorem Moves.refl (n : Replica) : Moves E S n n := Relation.ReflTransGen.refl

theorem Moves.trans (h₁ : Moves E S a b) (h₂ : Moves E S b c) : Moves E S a c :=
  Relation.ReflTransGen.trans h₁ h₂

theorem Move.moves (h : Move E S a b) : Moves E S a b :=
  Relation.ReflTransGen.single h

theorem Aside.moves (h : Aside a b) : Moves E S a b :=
  (Move.aside h).moves

theorem Moves.invariant {P : Replica → Prop} (hmove : ∀ n n', P n → Move E S n n' → P n')
    {n' : Replica} (h : Moves E S n n') (h₀ : P n) : P n' := by
  induction h with
  | refl => exact h₀
  | tail _ hm ih => exact hmove _ _ ih hm

/-! ## 4. What folding a certificate leaves alone -/

section Folds

variable {E : Env} {S : Scope} {n n' a b c : Replica} {cur : Block} {roots : List BlockID} {pe : PersistEntry}

/-- What folding a certificate leaves alone. -/
structure Folding (n n' : Replica) : Prop where
  id : n'.id = n.id
  gcBase : n'.gcBase = n.gcBase
  blocks : n'.blocks = n.blocks
  pending : n'.pending = n.pending
  pendingBlocks : n'.pendingBlocks = n.pendingBlocks
  wantBase : n'.wantBase = n.wantBase
  vHeight : n'.vHeight = n.vHeight
  logStore : n'.logStore = n.logStore
  vcs : n'.vcs = n.vcs
  view : n'.view = n.view
  fetches : n'.fetches = n.fetches
  syncReqs : n'.syncReqs = n.syncReqs
  qcHigh : n.qcHigh.height ≤ n'.qcHigh.height
  panicked : n.panicked = true → n'.panicked = true
  /-- no vote is signed, and neither a block nor a vote recorded -/
  ballots : ∀ e, e.isBallot = true → e ∈ n'.out → e ∈ n.out

theorem Folding.of_writes {m : Replica} (n : Replica) (h : m = { n with
      epoch := m.epoch, sets := m.sets, qcHigh := m.qcHigh, bLock := m.bLock, bExec := m.bExec,
      applied := m.applied, notify := m.notify, writes := m.writes, out := m.out,
      panicked := m.panicked }) (hq : n.qcHigh.height ≤ m.qcHigh.height)
    (hp : n.panicked = true → m.panicked = true)
    (hb : ∀ e, e.isBallot = true → e ∈ m.out → e ∈ n.out) : Folding n m := by
  rw [h] at hb ⊢
  exact ⟨rfl, rfl, rfl, rfl, rfl, rfl, rfl, rfl, rfl, rfl, rfl, rfl, hq, hp, hb⟩

theorem Folding.refl (n : Replica) : Folding n n :=
  Folding.of_writes n rfl (le_refl _) (fun h => h) fun _ _ h => h

theorem Folding.trans (h₁ : Folding a b) (h₂ : Folding b c) : Folding a c where
  id := h₂.id.trans h₁.id
  gcBase := h₂.gcBase.trans h₁.gcBase
  blocks := h₂.blocks.trans h₁.blocks
  pending := h₂.pending.trans h₁.pending
  pendingBlocks := h₂.pendingBlocks.trans h₁.pendingBlocks
  wantBase := h₂.wantBase.trans h₁.wantBase
  vHeight := h₂.vHeight.trans h₁.vHeight
  logStore := h₂.logStore.trans h₁.logStore
  vcs := h₂.vcs.trans h₁.vcs
  view := h₂.view.trans h₁.view
  fetches := h₂.fetches.trans h₁.fetches
  syncReqs := h₂.syncReqs.trans h₁.syncReqs
  qcHigh := h₁.qcHigh.trans h₂.qcHigh
  panicked := fun h => h₂.panicked (h₁.panicked h)
  ballots := fun e he h => h₁.ballots e he (h₂.ballots e he h)

theorem mem_out_persistRecordLocked {e : Effect} (h : e ∈ (n.persistRecordLocked pe).out) :
    e ∈ n.out ∨ ∃ o, e = .wrote pe o := by
  unfold Replica.persistRecordLocked Replica.persistLocked at h
  split at h
  · exact Or.inl h
  · rcases List.mem_cons.mp h with h | h
    · exact Or.inr ⟨_, h⟩
    · exact Or.inl h

theorem Folding.persistRecordLocked (hpe : ∀ o, Effect.isBallot (.wrote pe o) = false)
    (n : Replica) : Folding n (n.persistRecordLocked pe) := by
  have hb : ∀ e, e.isBallot = true → e ∈ (n.persistRecordLocked pe).out → e ∈ n.out := by
    intro e he h
    rcases mem_out_persistRecordLocked h with h | ⟨o, rfl⟩
    · exact h
    · exact absurd he (by simp [hpe o])
  obtain ⟨w, o, h⟩ := persistRecordLocked_eq pe n
  rw [h] at hb ⊢
  exact Folding.of_writes n rfl (le_refl _) (fun h => h) hb

theorem Folding.raiseLock (p : Block) (n : Replica) : Folding n (n.raiseLock p) := by
  unfold Replica.raiseLock
  split
  · exact Folding.of_writes n rfl (le_refl _) (fun h => h) fun _ _ h => h
  · exact Folding.refl n

theorem Folding.commitUpToLocked (gp : Block) (n : Replica) :
    Folding n (n.commitUpToLocked E gp) := by
  obtain ⟨a, w, o, h, hk⟩ := foldl_execBlock_eq (E := E) (n.span gp) n
  have hb : ∀ e, e.isBallot = true → e ∈ o → e ∈ n.out := by
    intro e he hmem
    have hfil : e ∈ o.filter Effect.isKey :=
      List.mem_filter.mpr ⟨hmem, Effect.isKey_of_isBallot he⟩
    rw [hk] at hfil
    rcases List.mem_append.mp hfil with hex | hold
    · obtain ⟨b, _, rfl⟩ := List.mem_map.mp (List.mem_reverse.mp hex)
      exact absurd he (by simp [Effect.isBallot])
    · exact (List.mem_filter.mp hold).1
  have hspan : Folding n ((n.span gp).foldl (Replica.execBlock E) n) := by
    rw [h]
    exact Folding.of_writes n rfl (le_refl _) (fun h => h) hb
  exact hspan.trans (Folding.persistRecordLocked (fun _ => rfl) _)

theorem Folding.chainRule (c : Block) (n : Replica) : Folding n (n.chainRule E c) := by
  rcases chainRule_cases (E := E) n c with ⟨_, _, h⟩ | ⟨_, _, h⟩ | ⟨p, _, _, h⟩ | ⟨p, _, _, _, h⟩ |
    ⟨p, gp, _, _, _, _, _, h⟩
  · rw [h]
    exact Folding.refl n
  · rw [h]
    exact Folding.of_writes n rfl (le_refl _) (fun _ => rfl) fun _ _ h => h
  · rw [h]
    exact Folding.refl n
  · exact h ▸ Folding.raiseLock p n
  · exact h ▸ (Folding.raiseLock p n).trans (Folding.commitUpToLocked gp _)

theorem Folding.onNewQCLocked (qc : QC) (n : Replica) : Folding n (n.onNewQCLocked E qc) := by
  rcases onNewQCLocked_cases (E := E) n qc with h | ⟨_, hlt, hraise⟩
  · rw [h]
    exact Folding.refl n
  · have f : Folding n ({ n with qcHigh := qc }.persistRecordLocked (.qc qc)) :=
      Folding.trans (b := { n with qcHigh := qc })
        (Folding.of_writes n rfl (le_of_lt hlt) (fun h => h) fun _ _ h => h)
        (Folding.persistRecordLocked (fun _ => rfl) _)
    rcases hraise with ⟨_, h⟩ | ⟨c, _, h⟩
    · exact h ▸ f
    · exact h ▸ f.trans (Folding.chainRule c _)

/-! ## 5. What every move keeps -/

theorem record_eq (b : Block) (n : Replica) : ∃ w o,
    n.record b = { n with blocks := n.blocks.insert b.id b, writes := w, out := o } :=
  persistRecordLocked_eq _ _

theorem castVote_eq (b : Block) (n : Replica) :
    (n.castVote E b).1 = n ∨ (n.vHeight < b.height ∧ ∃ w o, (n.castVote E b).1 =
      { n with vHeight := b.height, writes := w, out := o }) := by
  unfold Replica.castVote
  split
  · exact Or.inl rfl
  next hlt =>
    right
    refine ⟨by omega, ?_⟩
    dsimp only
    obtain ⟨w, o, h⟩ := persistRecordLocked_eq (.voted b.height) { n with vHeight := b.height }
    have h' : ({ n with vHeight := b.height }.persistVotedLocked b.height).1 =
      { n with vHeight := b.height, writes := w, out := o } := h
    split
    · exact ⟨w, o, h'⟩
    · rw [h']
      exact ⟨w, _, rfl⟩

/-- The replica and its GC base are the same, blocks stay, `qcHigh` does not drop, and a panic is
final. -/
structure Onward (n n' : Replica) : Prop where
  id : n'.id = n.id
  gcBase : n'.gcBase = n.gcBase
  blocks : ∀ id ∈ n.blocks, id ∈ n'.blocks
  qcHigh : n.qcHigh.height ≤ n'.qcHigh.height
  panicked : n.panicked = true → n'.panicked = true

theorem Onward.trans (h₁ : Onward a b) (h₂ : Onward b c) : Onward a c :=
  ⟨h₂.id.trans h₁.id, h₂.gcBase.trans h₁.gcBase, fun x hx => h₂.blocks x (h₁.blocks x hx),
    h₁.qcHigh.trans h₂.qcHigh, fun h => h₂.panicked (h₁.panicked h)⟩

theorem Move.onward (h : Move E S n n') : Onward n n' := by
  cases h with
  | aside h =>
    exact ⟨h.id, h.gcBase, by rw [h.blocks]; exact fun _ h => h, by rw [h.qcHigh], h.panicked⟩
  | insert b _ _ _ _ _ =>
    obtain ⟨w, o, h⟩ := record_eq b n
    rw [h]
    exact ⟨rfl, rfl, fun _ hx => (AList.mem_insert _).mpr (Or.inr hx), le_refl _, fun h => h⟩
  | own cmd _ _ _ =>
    obtain ⟨w, o, h⟩ := record_eq (n.nextBlock cmd) n
    rw [h]
    exact ⟨rfl, rfl, fun _ hx => (AList.mem_insert _).mpr (Or.inr hx), le_refl _, fun h => h⟩
  | fold qc _ _ =>
    have f := Folding.onNewQCLocked (E := E) qc n
    exact ⟨f.id, f.gcBase, by rw [f.blocks]; exact fun _ h => h, f.qcHigh, f.panicked⟩
  | adopt qc _ _ lt => exact ⟨rfl, rfl, fun _ h => h, le_of_lt lt, fun h => h⟩
  | vote b _ _ _ =>
    rcases castVote_eq (E := E) b n with h | ⟨_, w, o, h⟩
    · rw [h]
      exact ⟨rfl, rfl, fun _ h => h, le_refl _, fun h => h⟩
    · rw [h]
      exact ⟨rfl, rfl, fun _ h => h, le_refl _, fun h => h⟩
  | collect vc _ => exact ⟨rfl, rfl, fun _ h => h, le_refl _, fun h => h⟩

theorem Move.vcs_cases (h : Move E S n n') : n'.vcs = n.vcs ∨ ∃ vc ∈ S.collects,
    n'.vcs = n.vcs.insert vc.view ((n.vcsOf vc.view).insert vc.sender vc) := by
  cases h with
  | aside ha => exact Or.inl ha.vcs
  | insert b _ _ _ _ _ =>
    obtain ⟨w, o, heq⟩ := record_eq b n
    exact Or.inl (by rw [heq])
  | own cmd _ _ _ =>
    obtain ⟨w, o, heq⟩ := record_eq (n.nextBlock cmd) n
    exact Or.inl (by rw [heq]; rfl)
  | fold qc _ _ => exact Or.inl (Folding.onNewQCLocked (E := E) qc n).vcs
  | adopt qc _ _ _ => exact Or.inl rfl
  | vote b _ _ _ =>
    rcases castVote_eq (E := E) b n with heq | ⟨_, w, o, heq⟩
    · exact Or.inl (by rw [heq])
    · exact Or.inl (by rw [heq])
  | collect vc hmem => exact Or.inr ⟨vc, hmem, rfl⟩

theorem Moves.onward (h : Moves E S n n') : Onward n n' :=
  h.invariant (P := Onward n) (fun _ _ h₁ h₂ => h₁.trans h₂.onward)
    ⟨rfl, rfl, fun _ h => h, le_refl _, fun h => h⟩

/-! ## 6. Inserting blocks -/

/-- The awaited base is in the scope, should one of the scope's blocks be it. -/
def Awaits (S : Scope) (n : Replica) : Prop :=
  ∀ qc, n.wantBase = some qc → n.qcHigh.height < qc.height → qc.nodeID ∈ S.inserts.map (·.id) →
    qc ∈ S.adopts

theorem Awaits.later (h : Awaits S n) (hw : n'.wantBase = none ∨ n'.wantBase = n.wantBase)
    (hq : n.qcHigh.height ≤ n'.qcHigh.height) : Awaits S n' := by
  intro qc hqc hlt
  rcases hw with hw | hw
  · rw [hw] at hqc
    cases hqc
  · exact h qc (hw ▸ hqc) (by omega)

/-- A move forward that leaves the buffers alone and sets no new base to wait for. -/
structure Steady (E : Env) (S : Scope) (n n' : Replica) : Prop where
  moves : Moves E S n n'
  pending : n'.pending = n.pending
  pendingBlocks : n'.pendingBlocks = n.pendingBlocks
  wantBase : n'.wantBase = none ∨ n'.wantBase = n.wantBase

theorem Steady.trans (h₁ : Steady E S a b) (h₂ : Steady E S b c) :
    Steady E S a c where
  moves := h₁.moves.trans h₂.moves
  pending := h₂.pending.trans h₁.pending
  pendingBlocks := h₂.pendingBlocks.trans h₁.pendingBlocks
  wantBase := by
    rcases h₂.wantBase with h | h
    · exact Or.inl h
    · exact h ▸ h₁.wantBase

theorem Steady.completeBaseLocked {id : BlockID} (hid : id ∈ n.blocks) (ha : Awaits S n)
    (hmem : id ∈ S.inserts.map (·.id)) : Steady E S n (n.completeBaseLocked E id) := by
  have hact : ∀ (m : Replica) (base : QC), Aside m (m.activateWithBaseLocked base) := fun m base =>
    Aside.of_bookkeeping m rfl (le_refl _) fun h => h
  refine completeBaseLocked_keeps (P := Steady E S n) ⟨Moves.refl n, rfl, rfl, Or.inr rfl⟩
    ⟨(hact n n.qcHigh).moves, rfl, rfl, Or.inl rfl⟩ ?_
  rintro high hw rfl hgt
  have hm : Move E S n { n with qcHigh := high } := Move.adopt high (ha high hw hgt hmem) hid hgt
  exact ⟨hm.moves.trans (hact _ _).moves, rfl, rfl, Or.inl rfl⟩

/-- The state in which the certificate of an inserted block is folded. -/
def Replica.entered (cur : Block) (n : Replica) : Replica :=
  let n := { n with fetches := n.fetches.erase cur.id }.record cur
  if cur.height > n.heightOf n.head then { n with head := cur.id } else n

theorem insertBlock_eq {qc : QC} (hj : cur.justify = some qc) (n : Replica) :
    n.insertBlock E cur =
      ((n.entered cur).onNewQCLocked E qc).completeBaseLocked E cur.id := by
  unfold Replica.insertBlock
  rw [hj]
  rfl

theorem Steady.entered (hmem : cur ∈ S.inserts) (hs : cur.Sound) (hnew : cur.id ∉ n.blocks)
    (hgate : n.epochGate E cur = true) (hp : S.linked → cur.parent = noID ∨ cur.parent ∈ n.blocks) :
    Steady E S n (n.entered cur) ∧ (n.entered cur).blocks = n.blocks.insert cur.id cur := by
  have h₀ : Aside n { n with fetches := n.fetches.erase cur.id } :=
    Aside.of_bookkeeping n rfl (le_refl _) fun h => h
  have h₁ : Move E S { n with fetches := n.fetches.erase cur.id }
      ({ n with fetches := n.fetches.erase cur.id }.record cur) :=
    Move.insert cur hmem hs hnew hgate hp
  obtain ⟨w, o, hrec⟩ := record_eq cur ({ n with fetches := n.fetches.erase cur.id } : Replica)
  unfold Replica.entered
  dsimp only
  rw [hrec] at h₁ ⊢
  split
  · refine ⟨⟨(h₀.moves.trans h₁.moves).trans (Aside.moves ?_), rfl, rfl, Or.inr rfl⟩, rfl⟩
    exact Aside.of_bookkeeping _ rfl (le_refl _) fun h => h
  · exact ⟨⟨h₀.moves.trans h₁.moves, rfl, rfl, Or.inr rfl⟩, rfl⟩

/-- **Inserting one block**: it enters, its certificate is folded, an awaited base is adopted. -/
theorem Steady.insertBlock (hS : cur.parent ∈ S.folds) (hmem : cur ∈ S.inserts) (hs : cur.Sound)
    (hnew : cur.id ∉ n.blocks) (hgate : n.epochGate E cur = true)
    (hp : S.linked → cur.parent = noID ∨ cur.parent ∈ n.blocks) (ha : Awaits S n) :
    Steady E S n (n.insertBlock E cur) ∧ cur.id ∈ (n.insertBlock E cur).blocks := by
  obtain ⟨qc, hj, hqc⟩ := hs.certifies
  rw [insertBlock_eq hj]
  obtain ⟨h₁, hb₁⟩ := Steady.entered hmem hs hnew hgate hp
  have f := Folding.onNewQCLocked (E := E) qc (n.entered cur)
  have hknown : S.linked → qc.nodeID = noID ∨ qc.nodeID ∈ (n.entered cur).blocks := by
    intro hlink
    rw [hqc, hb₁]
    exact (hp hlink).imp_right fun h => (AList.mem_insert _).mpr (Or.inr h)
  have h₂ : Steady E S n ((n.entered cur).onNewQCLocked E qc) :=
    h₁.trans ⟨(Move.fold qc (hqc ▸ hS) hknown).moves, f.pending, f.pendingBlocks,
      Or.inr f.wantBase⟩
  have hin : cur.id ∈ ((n.entered cur).onNewQCLocked E qc).blocks := by
    rw [f.blocks, hb₁]
    exact (AList.mem_insert _).mpr (Or.inl rfl)
  have h₃ := Steady.completeBaseLocked (E := E) hin
    (ha.later h₂.wantBase h₂.moves.onward.qcHigh) (List.mem_map_of_mem hmem)
  exact ⟨h₂.trans h₃, h₃.moves.onward.blocks _ hin⟩

/-- A parked block: sound, under its parent, and in the scope if it hangs below a root. -/
def Queued (S : Scope) (roots : List BlockID) (id : BlockID) (b : Block) : Prop :=
  b.parent = id ∧ b.Sound ∧ ((∃ x ∈ roots, x ∈ b.parent.ancestors) → b ∈ S.inserts)

/-- The scope of an insertion: certificates of the blocks may be folded, and the state is as the
scope expects it. -/
structure Accepting (S : Scope) (roots : List BlockID) (n : Replica) : Prop where
  folds : ∀ b ∈ S.inserts, b.parent ∈ S.folds
  awaits : Awaits S n
  parked : Parked (Queued S roots) n

/-- A block on the worklist. -/
structure Listed (S : Scope) (roots : List BlockID) (n : Replica) (b : Block) : Prop where
  mem : b ∈ S.inserts
  sound : b.Sound
  parent : S.linked → b.parent = noID ∨ b.parent ∈ n.blocks
  hangs : ∃ x ∈ roots, x ∈ b.id.ancestors

theorem Accepting.addBlockTurn (h : Accepting S roots n) (hc : Listed S roots n cur) :
    Moves E S n (n.addBlockTurn E cur).1 ∧ Accepting S roots (n.addBlockTurn E cur).1 ∧
      (∀ b ∈ (n.addBlockTurn E cur).2.2, Listed S roots (n.addBlockTurn E cur).1 b) ∧
      (n.epochGate E cur = true → cur.id ∈ (n.addBlockTurn E cur).1.blocks) := by
  have hins := Steady.insertBlock (E := E) (n := n) (h.folds _ hc.mem) hc.mem hc.sound
  rcases addBlockTurn_cases (E := E) (Q := Queued S roots)
    (fun _ _ hb => ⟨rfl, hb.2⟩) cur n (fun hnot hgate => by
      unfold Parked
      rw [(hins hnot hgate hc.parent h.awaits).1.pendingBlocks]
      exact h.parked) with
    ⟨heq, hout⟩ | ⟨hnot, hgate, pb, heq, hpark, hwork⟩
  · rw [heq]
    exact ⟨Moves.refl n, h, by simp, fun hg => hout.resolve_right (not_not.mpr hg)⟩
  · obtain ⟨h₁, hin₁⟩ := hins hnot hgate hc.parent h.awaits
    have ha₁ := h.awaits.later h₁.wantBase h₁.moves.onward.qcHigh
    rw [heq]
    generalize n.insertBlock E cur = m at *
    have hside : Aside m { m with pending := m.pending.erase cur.id, pendingBlocks := pb } :=
      Aside.of_bookkeeping m rfl (le_refl _) fun h => h
    refine ⟨h₁.moves.trans hside.moves, ⟨h.folds, ha₁, hpark⟩, fun b hb => ?_, fun _ => hin₁⟩
    obtain ⟨⟨hbp, hbs, hbm⟩, hbin⟩ := hwork b hb
    obtain ⟨x, hx, hxc⟩ := hc.hangs
    refine ⟨hbm ⟨x, hx, hbp ▸ hxc⟩, hbs, fun _ => Or.inr hbin, x, hx, ?_⟩
    rw [hbs.ancestors, hbp]
    exact List.mem_cons_of_mem _ hxc

variable {b : Block}

theorem Listed.later (h : Listed S roots n b) (hn : Onward n n') : Listed S roots n' b :=
  ⟨h.mem, h.sound, fun hlink => (h.parent hlink).imp_right (hn.blocks _), h.hangs⟩

theorem Accepting.addBlockLocked (h : Accepting S roots n) (hb : Listed S roots n b) :
    Moves E S n (n.addBlockLocked E b).1 ∧ Accepting S roots (n.addBlockLocked E b).1 ∧
      (n.epochGate E b = true → b.id ∈ (n.addBlockLocked E b).1.blocks) := by
  obtain ⟨h₁, a₁, w₁, g₁⟩ := h.addBlockTurn (E := E) hb
  obtain ⟨h₂, a₂⟩ := addBlockLocked_run (E := E) (L := Listed S roots)
    (I := fun m => Moves E S (n.addBlockTurn E b).1 m ∧ Accepting S roots m)
    (fun m cur hm hc => by
      obtain ⟨h₂, a₂, w₂, _⟩ := hm.2.addBlockTurn (E := E) hc
      exact ⟨⟨hm.1.trans h₂, a₂⟩, w₂, fun _ hx => hx.later h₂.onward⟩) ⟨Moves.refl _, a₁⟩ w₁
  exact ⟨h₁.trans h₂, a₂, fun hg => h₂.onward.blocks _ (g₁ hg)⟩

end Folds

end Cachey.HotStuff
