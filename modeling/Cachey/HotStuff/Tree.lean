/-
# The block tree of one replica

What holds of the tree whatever the network delivers: it is a map from ids to the blocks that
bear them, and every block but genesis is sound -- content-addressed, with a justification that
certifies its direct parent (`Grown`).  So every parent link that can be followed is one-chained,
and heights and parents can be read off the ids.

Every run starts in the state of a freshly configured replica (`Newborn`), and passes garbage
collections (`Collected`) and restarts; the tree is grown in every state reached
(`Host.planted`).
-/
import Cachey.HotStuff.Calls
import Cachey.HotStuff.Host

namespace Cachey.HotStuff

/-! ## 1. Grown trees -/

/-- A map from ids to the blocks that bear them, all sound but for genesis. -/
def Grown (blocks : GoMap BlockID Block) : Prop :=
  ∀ id b, blocks.lookup id = some b → b.id = id ∧ (IsGenesis b ∨ b.Sound)

namespace Grown

variable {blocks : GoMap BlockID Block} {b c : Block} {id : BlockID}

theorem put (h : Grown blocks) (hb : IsGenesis b ∨ b.Sound) : Grown (blocks.insert b.id b) := by
  intro id x hx
  rw [GoMap.lookup_insert_of] at hx
  split at hx
  next hid =>
    obtain rfl := Option.some.inj hx
    exact ⟨hid.symm, hb⟩
  next => exact h id x hx

theorem insert (h : Grown blocks) (hb : b.Sound) : Grown (blocks.insert b.id b) :=
  h.put (Or.inr hb)

theorem foldl_put : ∀ (l : List Block) (blocks : GoMap BlockID Block), Grown blocks →
    (∀ b ∈ l, IsGenesis b ∨ b.Sound) → Grown (l.foldl (fun m b => m.insert b.id b) blocks)
  | [], _, h, _ => h
  | b :: l, _, h, hl => foldl_put l _ (h.put (hl b List.mem_cons_self))
      fun x hx => hl x (List.mem_cons_of_mem _ hx)

theorem sub {blocks' : GoMap BlockID Block} (h : Grown blocks)
    (hsub : ∀ id b, blocks'.lookup id = some b → blocks.lookup id = some b) : Grown blocks' :=
  fun id b hb => h id b (hsub id b hb)

theorem noID_notMem (h : Grown blocks) : noID ∉ blocks := by
  intro hno
  obtain ⟨b, hb⟩ := GoMap.mem_iff_lookup.mp hno
  obtain ⟨hid, hg | hs⟩ := h _ b hb
  · rw [hg.id_eq] at hid
    exact absurd hid (by simp [genesisID, noID])
  · exact hs.id_ne_raw "" hid

theorem height (h : Grown blocks) (hb : blocks.lookup id = some b) : b.height = id.height := by
  obtain ⟨rfl, hg | hs⟩ := h id b hb
  · rw [hg.id_eq, hg.height_eq]
    rfl
  · exact hs.id_height.symm

theorem heightOf {n : Replica} (h : Grown n.blocks) (hid : id ∈ n.blocks) :
    n.heightOf id = id.height := by
  obtain ⟨b, hb⟩ := GoMap.mem_iff_lookup.mp hid
  simp [Replica.heightOf, hb, h.height hb]

theorem child {p : Block} (h : Grown blocks) (hc : blocks.lookup id = some c)
    (hp : blocks.lookup c.parent = some p) :
    c.Sound ∧ id.parent = c.parent ∧ p.id = c.parent ∧ oneChainedBy p c = true := by
  have hne : c.parent ≠ noID := fun hno =>
    h.noID_notMem (hno ▸ GoMap.mem_iff_lookup.mpr ⟨p, hp⟩)
  obtain ⟨rfl, hg | hs⟩ := h id c hc
  · exact absurd hg.parent_eq hne
  · obtain ⟨qc, hj, hqc⟩ := hs.certifies
    have hpid := (h _ p hp).1
    exact ⟨hs, hs.id_parent, hpid, by simp [oneChainedBy, hne, hj, hqc, hpid]⟩

/-- The parent named by a block of the tree is the one hashed in its id, unless it is genesis. -/
theorem parent (h : Grown blocks) (hc : blocks.lookup id = some c) (hne : c.parent ≠ noID) :
    id.parent = c.parent := by
  obtain ⟨rfl, hg | hs⟩ := h id c hc
  · exact absurd hg.parent_eq hne
  · exact hs.id_parent

theorem parent_height_of_noID (h : Grown blocks) (hc : blocks.lookup id = some c)
    (hno : c.parent = noID) : id.parent.height = 0 ∧ id.parent.parent.height = 0 := by
  obtain ⟨rfl, hg | hs⟩ := h id c hc
  · rw [hg.id_eq]
    exact ⟨rfl, rfl⟩
  · rw [hs.id_parent, hno]
    exact ⟨rfl, rfl⟩

end Grown

variable {blocks : GoMap BlockID Block} {E : Env} {n : Replica} {K : Setup}

/-- A block that can stand in a grown tree. -/
def Block.Good (b : Block) : Prop := IsGenesis b ∨ b.Sound

namespace BlockID

variable {a b : BlockID}

theorem depth_lt_of_mem_ancestors : ∀ {b : BlockID}, a ∈ b.ancestors → b ≠ a →
    a.depth < b.depth
  | raw _, h, hne => by
    simp only [ancestors, List.mem_singleton] at h
    exact absurd h.symm hne
  | digest _ _ p _, h, hne => by
    simp only [ancestors, List.mem_cons] at h
    have hp : a ∈ p.ancestors := h.resolve_left (Ne.symm hne)
    by_cases hpa : p = a
    · simp [depth, hpa]
    · have := depth_lt_of_mem_ancestors hp hpa
      simp only [depth]
      omega

theorem depth_le_of_mem_ancestors (h : a ∈ b.ancestors) : a.depth ≤ b.depth := by
  by_cases hab : b = a
  · rw [hab]
  · exact le_of_lt (depth_lt_of_mem_ancestors h hab)

end BlockID

theorem walk_id_mem_ancestors (h : Grown blocks) :
    ∀ (fuel : ℕ) (b : Block), IsGenesis b ∨ b.Sound →
      ∀ x ∈ walk blocks fuel b, x.id ∈ b.id.ancestors
  | 0, b, _, x, hx => by
    obtain rfl : x = b := by simpa [walk] using hx
    exact x.id.self_mem_ancestors
  | fuel + 1, b, hb, x, hx => by
    rcases List.mem_cons.mp hx with rfl | hx
    · exact x.id.self_mem_ancestors
    split at hx
    · cases hx
    next hne =>
      split at hx
      · cases hx
      next p hp =>
        have hs : b.Sound := hb.resolve_left fun hg => hne hg.parent_eq
        obtain ⟨hpid, hpar⟩ := h _ p hp
        rw [hs.ancestors, ← hpid]
        exact List.mem_cons_of_mem _ (walk_id_mem_ancestors h fuel p hpar x hx)

/-- A quorum of the epoch's validators signed exactly this height and block. -/
def QC.hasQuorum (E : Env) (sets : GoMap Nat ValidatorSet) (qc : QC) : Bool :=
  match sets.lookup qc.epoch with
  | none => false
  | some set => set.quorum ≤ qc.votes.len && qc.votes.entries.all fun e =>
      set.has e.1 && verifyInSet E set e.1 e.2 (.vote qc.height qc.nodeID e.1)

section Certificates

variable {E : Env} {n : Replica} {qc : QC}

theorem qcValid_iff (hne : qc.nodeID ≠ genesisID) :
    n.qcValid E qc = true ↔ qc.hasQuorum E n.sets = true ∧ n.contradicts qc = false := by
  unfold Replica.qcValid QC.hasQuorum
  rw [if_neg hne]
  cases n.sets.lookup qc.epoch with
  | none => simp
  | some set =>
    by_cases hlen : qc.votes.len < set.quorum
    · simp [hlen, Nat.not_le.mpr hlen]
    · have hlen' : set.quorum ≤ qc.votes.len := Nat.le_of_not_lt hlen
      cases n.contradicts qc <;> simp [hlen, hlen']

/-- A valid certificate of a block of the tree states its height and its epoch. -/
theorem Grown.certified (h : Grown n.blocks) (hval : n.qcValid E qc = true) {c : Block}
    (hc : n.blocks.lookup qc.nodeID = some c) : qc.height = c.height ∧ qc.epoch = c.epoch := by
  by_cases hgen : qc.nodeID = genesisID
  · obtain ⟨hid, hg | hs⟩ := h _ c hc
    · rw [Replica.qcValid, if_pos hgen, Bool.and_eq_true, decide_eq_true_eq,
        decide_eq_true_eq] at hval
      rw [hg.height_eq, hg.epoch_eq]
      exact hval
    · exact absurd (hid.trans hgen) (hs.id_ne_raw _)
  · have hcon := ((qcValid_iff hgen).mp hval).2
    unfold Replica.contradicts at hcon
    rw [hc] at hcon
    simp only [ne_eq, decide_not, Bool.or_eq_false_iff, Bool.not_eq_false',
      decide_eq_true_eq] at hcon
    exact ⟨hcon.1.symm, hcon.2.symm⟩

end Certificates

/-! ## 2. A newborn replica -/

/-- The state of a replica that was configured and has done nothing yet. -/
structure Newborn (n : Replica) : Prop where
  tree : ∃ g, IsGenesis g ∧ n.blocks = (∅ : GoMap BlockID Block).insert genesisID g
  qcHigh : n.qcHigh.nodeID = genesisID ∧ n.qcHigh.height = 0
  bLock : n.bLock = genesisID
  bExec : n.bExec = genesisID
  gcBase : n.gcBase = genesisID
  vHeight : n.vHeight = 0
  epoch : n.epoch = 0
  parked : n.pendingBlocks = ∅
  recoverQCs : n.recoverQCs = []
  recoverExec : n.recoverExec = noID
  panicked : n.panicked = false
  writes : n.writes = []
  applied : n.applied = []
  vcs : n.vcs = ∅
  fetches : n.fetches = ∅
  syncReqs : n.syncReqs = ∅

/-- Nothing has been heard, buffered, counted or sent yet. -/
structure Replica.Untouched (n : Replica) : Prop where
  head : n.head = genesisID
  view : n.view = 0
  pending : n.pending = ∅
  votes : n.votes = ∅
  qcFormed : n.qcFormed = []
  wantBase : n.wantBase = none
  out : n.out = []

theorem newReplica_spec {cfg : Config} (hn : newReplica E cfg = .ok n) :
    Newborn n ∧ n.Untouched := by
  unfold newReplica at hn
  split at hn
  · cases hn
  dsimp only at hn
  split at hn
  · cases hn
  generalize (if cfg.leader = "" then cfg.id else cfg.leader) = leader at hn
  split at hn
  · cases hn
  obtain rfl := Except.ok.inj hn
  exact ⟨⟨⟨_, ⟨rfl, rfl, rfl, rfl, rfl⟩, rfl⟩, ⟨rfl, rfl⟩, rfl, rfl, rfl, rfl, rfl, rfl, rfl, rfl,
    rfl, rfl, rfl, rfl, rfl, rfl⟩, rfl, rfl, rfl, rfl, rfl, rfl, rfl⟩

theorem setPeerKey_frame (peer : String) (pub : Bytes) (n : Replica) : ∃ pk s,
    (n.setPeerKey peer pub).1 = { n with peerKeys := pk, sets := s } := by
  unfold Replica.setPeerKey
  split
  · exact ⟨_, _, rfl⟩
  dsimp only
  split
  · exact ⟨_, _, rfl⟩
  split
  · exact ⟨_, _, rfl⟩
  split
  · exact ⟨_, _, rfl⟩
  · exact ⟨_, _, rfl⟩

theorem foldl_setPeerKey_frame : ∀ (keys : List (String × Bytes)) (n : Replica), ∃ pk s,
    keys.foldl (fun n k => (n.setPeerKey k.1 k.2).1) n = { n with peerKeys := pk, sets := s }
  | [], n => ⟨n.peerKeys, n.sets, rfl⟩
  | k :: keys, n => by
    obtain ⟨pk, s, hone⟩ := setPeerKey_frame k.1 k.2 n
    obtain ⟨pk', s', hrest⟩ := foldl_setPeerKey_frame keys (n.setPeerKey k.1 k.2).1
    refine ⟨pk', s', ?_⟩
    rw [List.foldl_cons, hrest, hone]

theorem Setup.fresh_frame (hn : K.fresh E = .ok n) : ∃ m pk s, newReplica E K.config = .ok m ∧
    n = { m with peerKeys := pk, sets := s } := by
  unfold Setup.fresh at hn
  split at hn
  · cases hn
  next m hm =>
    obtain ⟨pk, s, heq⟩ := foldl_setPeerKey_frame K.keys m
    exact ⟨m, pk, s, hm, (Except.ok.inj hn).symm.trans heq⟩

theorem Newborn.fresh (hn : K.fresh E = .ok n) : Newborn n := by
  obtain ⟨m, pk, s, hm, rfl⟩ := Setup.fresh_frame hn
  exact { (newReplica_spec hm).1 with }

theorem Replica.Untouched.fresh (hn : K.fresh E = .ok n) : n.Untouched := by
  obtain ⟨m, pk, s, hm, rfl⟩ := Setup.fresh_frame hn
  exact { (newReplica_spec hm).2 with }

theorem Newborn.grown (h : Newborn n) : Grown n.blocks := by
  obtain ⟨g, hg, hb⟩ := h.tree
  intro id b hl
  rw [hb, GoMap.lookup_insert_of] at hl
  split at hl
  next hid =>
    obtain rfl := Option.some.inj hl
    exact ⟨hg.id_eq.trans hid.symm, Or.inl hg⟩
  next => exact absurd hl (by simp [AList.lookup_empty])

theorem Newborn.genesis_mem (h : Newborn n) : genesisID ∈ n.blocks := by
  obtain ⟨g, _, hb⟩ := h.tree
  rw [hb]
  exact (AList.mem_insert _).mpr (Or.inl rfl)

theorem Newborn.parkedSound (h : Newborn n) : ParkedSound n := by
  intro id l hl
  rw [h.parked] at hl
  exact absurd hl (by simp [AList.lookup_empty])

/-! ## 3. Collecting garbage -/

/-- The ids `gcLocked` deletes. -/
def Replica.garbage (n : Replica) (exec base : Block) : List BlockID :=
  (n.blocks.values.filter fun b => ! n.retained exec base b).map (·.id)

/-- What a garbage collection does to a state: the garbage goes, the base moves, and parked
blocks may go with it. -/
structure Collected (n n' : Replica) (exec base : Block) : Prop where
  execAt : n.blocks.lookup n.bExec = some exec
  boundary : n.gcBoundary exec = some base
  blocks : ∀ id, n'.blocks.lookup id =
    if id ∈ n.garbage exec base then none else n.blocks.lookup id
  gcBase : n'.gcBase = base.id
  parked : ∀ id l, n'.pendingBlocks.lookup id = some l → n.pendingBlocks.lookup id = some l
  fetches : ∀ id ∈ n'.fetches, id ∈ n.fetches
  syncReqs : n'.syncReqs = n.syncReqs
  qcHigh : n'.qcHigh = n.qcHigh
  bLock : n'.bLock = n.bLock
  bExec : n'.bExec = n.bExec
  vHeight : n'.vHeight = n.vHeight
  epoch : n'.epoch = n.epoch
  sets : n'.sets = n.sets
  vcs : n'.vcs = n.vcs
  view : n'.view = n.view
  panicked : n'.panicked = n.panicked

theorem foldl_dropBlock_eq : ∀ (ids : List BlockID) (n : Replica), ∃ v q a p f w o pb,
    ids.foldl Replica.dropBlock n = { n with
      blocks := ids.foldl (fun m id => m.erase id) n.blocks
      votes := v, qcFormed := q, applied := a, pending := p, fetches := f, notify := w, out := o,
      pendingBlocks := pb } ∧
      (∀ id l, pb.lookup id = some l → n.pendingBlocks.lookup id = some l) ∧
      ∀ id ∈ f, id ∈ n.fetches
  | [], n => ⟨n.votes, n.qcFormed, n.applied, n.pending, n.fetches, n.notify, n.out,
      n.pendingBlocks, rfl, fun _ _ h => h, fun _ h => h⟩
  | id :: ids, n => by
    have hone : ∃ v q a p w o, n.dropBlock id = { n with
        blocks := n.blocks.erase id
        votes := v, qcFormed := q, applied := a, pending := p, fetches := n.fetches.erase id,
        notify := w, out := o, pendingBlocks := n.pendingBlocks.erase id } := by
      unfold Replica.dropBlock
      dsimp only
      split
      · exact ⟨_, _, _, _, _, _, rfl⟩
      · exact ⟨_, _, _, _, _, _, rfl⟩
    obtain ⟨v₀, q₀, a₀, p₀, w₀, o₀, h₀⟩ := hone
    obtain ⟨v, q, a, p, f, w, o, pb, h, hpb, hf⟩ := foldl_dropBlock_eq ids (n.dropBlock id)
    refine ⟨v, q, a, p, f, w, o, pb, ?_, fun k l hl => ?_, fun k hk => ?_⟩
    · rw [List.foldl_cons, h, h₀]
      rfl
    · have := hpb k l hl
      rw [h₀] at this
      rw [GoMap.lookup_erase_of] at this
      split at this
      · cases this
      · exact this
    · have := hf k hk
      rw [h₀] at this
      exact (AList.mem_erase.mp this).2

/-- **`gcLocked`, by cases**: nothing to do, or a collection. -/
theorem gcLocked_cases (n : Replica) :
    n.gcLocked = (n, none) ∨ ∃ exec base cp,
      n.gcLocked.2 = some cp ∧ base.id ≠ n.gcBase ∧ Collected n n.gcLocked.1 exec base := by
  unfold Replica.gcLocked
  cases hexec : n.blocks.lookup n.bExec with
  | none => exact Or.inl rfl
  | some exec =>
    dsimp only
    cases hbase : n.gcBoundary exec with
    | none => exact Or.inl rfl
    | some base =>
      dsimp only
      by_cases hsame : base.id = n.gcBase
      · exact Or.inl (if_pos hsame)
      · right
        rw [if_neg hsame]
        obtain ⟨v, q, a, p, f, w, o, pb, h, hpb, hf⟩ := foldl_dropBlock_eq (n.garbage exec base) n
        refine ⟨exec, base, _, rfl, hsame, ?_⟩
        change Collected n { (n.garbage exec base).foldl Replica.dropBlock n with gcBase := base.id }
          exec base
        rw [h]
        exact ⟨hexec, hbase, fun id => GoMap.lookup_foldl_erase _ _, rfl, hpb, hf, rfl, rfl, rfl,
          rfl, rfl, rfl, rfl, rfl, rfl, rfl⟩

theorem gcLocked_frame (n : Replica) :
    n.gcLocked.1.id = n.id ∧ n.gcLocked.1.head = n.head ∧ n.gcLocked.1.wantBase = n.wantBase := by
  have hdrop : ∀ ids : List BlockID, (ids.foldl Replica.dropBlock n).id = n.id ∧
      (ids.foldl Replica.dropBlock n).head = n.head ∧
      (ids.foldl Replica.dropBlock n).wantBase = n.wantBase := by
    intro ids
    obtain ⟨v, q, a, p, f, w, o, pb, h, _, _⟩ := foldl_dropBlock_eq ids n
    rw [h]
    exact ⟨rfl, rfl, rfl⟩
  unfold Replica.gcLocked
  split
  · exact ⟨rfl, rfl, rfl⟩
  split
  · exact ⟨rfl, rfl, rfl⟩
  split
  · exact ⟨rfl, rfl, rfl⟩
  · exact hdrop _

namespace Collected

variable {n n' : Replica} {exec base b : Block} {id : BlockID}

theorem sub (h : Collected n n' exec base) (hb : n'.blocks.lookup id = some b) :
    n.blocks.lookup id = some b := by
  rw [h.blocks id] at hb
  split at hb
  · cases hb
  · exact hb

theorem lookup_of_retained (h : Collected n n' exec base) (ht : Grown n.blocks)
    (hb : n.blocks.lookup id = some b) (hr : n.retained exec base b = true) :
    n'.blocks.lookup id = some b := by
  rw [h.blocks id, if_neg, hb]
  intro hg
  obtain ⟨x, hx, hid⟩ := List.mem_map.mp hg
  obtain ⟨hxv, hnot⟩ := List.mem_filter.mp hx
  obtain ⟨k, hk⟩ := GoMap.mem_values_iff.mp hxv
  have hkid : k = id := (ht k x hk).1.symm.trans hid
  rw [hkid, hb] at hk
  obtain rfl := Option.some.inj hk
  simp [hr] at hnot

theorem lookup_of_garbage (h : Collected n n' exec base) (ht : Grown n.blocks)
    (hb : n.blocks.lookup id = some b) (hr : n.retained exec base b = false) :
    n'.blocks.lookup id = none := by
  rw [h.blocks id, if_pos]
  refine List.mem_map.mpr ⟨b, List.mem_filter.mpr ⟨GoMap.mem_values_of_lookup hb, ?_⟩, (ht _ b hb).1⟩
  simp [hr]

theorem lower (h : Collected n n' exec base) (hb : n.blocks.lookup id = some b)
    (hgone : id ∉ n'.blocks) (ht : Grown n.blocks) : b.height < exec.height := by
  by_contra hge
  refine hgone (GoMap.mem_iff_lookup.mpr ⟨b, h.lookup_of_retained ht hb ?_⟩)
  have : exec.height ≤ b.height := by omega
  simp [Replica.retained, this]

end Collected

/-! ## 4. Every reachable state -/

/-- A grown tree with genesis and the GC base in it, and sound blocks waiting for their
parents. -/
structure Planted (n : Replica) : Prop where
  tree : Grown n.blocks
  genesis : genesisID ∈ n.blocks
  base : n.gcBase ∈ n.blocks
  parked : ParkedSound n

/-- What is on disk can go into a tree. -/
structure Host.Stocked (s : Host) : Prop where
  node : Planted s.node
  log : ∀ b, .block b ∈ s.log → b.Sound
  files : ∀ cp, s.checkpoint = some cp ∨ s.taken = some cp → ∀ b ∈ cp.blocks, IsGenesis b ∨ b.Sound

/-- What the moves of a call keep of the tree: it stays grown, and only sound blocks are
recorded. -/
structure Growing (n₀ n : Replica) : Prop where
  tree : Grown n.blocks
  blocks : ∀ id ∈ n₀.blocks, id ∈ n.blocks
  gcBase : n.gcBase = n₀.gcBase
  recorded : ∀ b o, .wrote (.block b) o ∈ n.out → b.Sound

variable {n₀ n' : Replica} {cp : Option Replica.Checkpoint} {log : List PersistEntry}
  {pe : PersistEntry} {s : Host}

theorem Growing.record (h : Growing n₀ n) {b : Block} (hb : b.Sound) : Growing n₀ (n.record b) := by
  have hrec : ∀ x o, .wrote (.block x) o ∈ (n.record b).out → x.Sound := by
    intro x o hx
    rcases mem_out_persistRecordLocked hx with hx | ⟨o', hx⟩
    · exact h.recorded x o hx
    · obtain rfl : x = b := by simpa using (Effect.wrote.inj hx).1
      exact hb
  obtain ⟨w, o, heq⟩ := record_eq b n
  rw [heq] at hrec ⊢
  exact ⟨h.tree.insert hb, fun id hid => (AList.mem_insert _).mpr (Or.inr (h.blocks id hid)),
    h.gcBase, hrec⟩

theorem Growing.move {S : Scope} (h : Growing n₀ n) (hm : Move E S n n') : Growing n₀ n' := by
  cases hm with
  | aside ha =>
    refine ⟨ha.blocks ▸ h.tree, ha.blocks ▸ h.blocks, ha.gcBase.trans h.gcBase, fun b o hb => ?_⟩
    have hfil : .wrote (.block b) o ∈ n'.out.filter Effect.isKey := List.mem_filter.mpr ⟨hb, rfl⟩
    rw [ha.journal] at hfil
    exact h.recorded b o (List.mem_filter.mp hfil).1
  | insert b _ hs _ _ _ => exact h.record hs
  | own cmd _ hready _ =>
    have h₁ := h.record (b := n.nextBlock cmd) ⟨rfl, n.qcHigh, rfl, hready⟩
    refine ⟨h₁.tree, h₁.blocks, h₁.gcBase, fun b o hb => h₁.recorded b o ?_⟩
    exact (List.mem_cons.mp hb).resolve_left (by simp)
  | fold qc _ _ =>
    have f := Folding.onNewQCLocked (E := E) qc n
    exact ⟨f.blocks ▸ h.tree, f.blocks ▸ h.blocks, f.gcBase.trans h.gcBase,
      fun b o hb => h.recorded b o (f.ballots _ rfl hb)⟩
  | adopt qc _ _ _ => exact ⟨h.tree, h.blocks, h.gcBase, h.recorded⟩
  | collect vc _ => exact ⟨h.tree, h.blocks, h.gcBase, h.recorded⟩
  | vote b _ _ _ =>
    have hrec : ∀ x o, .wrote (.block x) o ∈ (n.castVote E b).1.out →
        .wrote (.block x) o ∈ n.out := by
      intro x o hx
      unfold Replica.castVote at hx
      split at hx
      · exact hx
      · dsimp only at hx
        have hvoted : .wrote (.block x) o ∈
            ({ n with vHeight := b.height }.persistRecordLocked (.voted b.height)).out := by
          split at hx
          · exact hx
          · exact (List.mem_cons.mp hx).resolve_left (by simp)
        rcases mem_out_persistRecordLocked hvoted with h | ⟨o', h⟩
        · exact h
        · cases h
    rcases castVote_eq (E := E) b n with heq | ⟨_, w, o, heq⟩
    · rw [heq]
      exact h
    · rw [heq] at hrec ⊢
      exact ⟨h.tree, h.blocks, h.gcBase, fun x o hx => h.recorded x o (hrec x o hx)⟩

theorem mem_durableOf {out : List Effect} (h : pe ∈ durableOf out) : ∃ o, .wrote pe o ∈ out := by
  obtain ⟨e, he, hpe⟩ := List.mem_filterMap.mp (List.mem_reverse.mp h)
  cases e with
  | wrote pe' o =>
    simp only [Effect.durable] at hpe
    split at hpe
    · cases hpe
    · obtain rfl := Option.some.inj hpe
      exact ⟨o, he⟩
  | _ => simp [Effect.durable] at hpe

theorem Planted.handle {C : Ctx} (h : Planted n) (hout : n.out = []) (inp : Input) :
    Planted (n.handle E C inp) ∧
      ∀ b, .block b ∈ durableOf (n.handle E C inp).out → b.Sound := by
  obtain ⟨hm, hP⟩ := handle_moves (E := E) (C := C) h.parked inp
  have hg : Growing n (n.handle E C inp) :=
    hm.invariant (fun _ _ h hm => h.move hm) ⟨h.tree, fun _ h => h, rfl, by simp [hout]⟩
  refine ⟨⟨hg.tree, hg.blocks _ h.genesis, ?_, hP⟩, fun b hb => ?_⟩
  · rw [hg.gcBase]
    exact hg.blocks _ h.base
  · obtain ⟨o, ho⟩ := mem_durableOf hb
    exact hg.recorded b o ho

/-- What is met below the start of a walk is in the tree, under its own id. -/
theorem Grown.mem_walk (h : Grown blocks) :
    ∀ (fuel : ℕ) (b x : Block), x ∈ walk blocks fuel b → x = b ∨ blocks.lookup x.id = some x
  | 0, b, x, hx => Or.inl (List.mem_singleton.mp hx)
  | fuel + 1, b, x, hx => by
    rw [walk] at hx
    rcases List.mem_cons.mp hx with hx | hx
    · exact Or.inl hx
    · right
      split at hx
      · cases hx
      · split at hx
        · cases hx
        next p hp =>
          rcases Grown.mem_walk h fuel p x hx with rfl | hx
          · rw [(h _ x hp).1]
            exact hp
          · exact hx

theorem Collected.base_lookup {exec base : Block} (h : Collected n n' exec base)
    (ht : Grown n.blocks) :
    n.blocks.lookup base.id = some base ∧ n'.blocks.lookup base.id = some base := by
  have hb := h.boundary
  unfold Replica.gcBoundary at hb
  dsimp only at hb
  split at hb
  next x hx =>
    obtain rfl := Option.some.inj hb
    have hmem := List.mem_of_find?_eq_some hx
    have hin : n.blocks.lookup x.id = some x := by
      rcases ht.mem_walk _ exec x hmem with rfl | hin
      · rw [(ht _ x h.execAt).1]
        exact h.execAt
      · exact hin
    refine ⟨hin, h.lookup_of_retained ht hin ?_⟩
    -- the blocks above the base on the committed prefix are higher than it
    obtain ⟨hlow, before, after, hsplit, hhigh⟩ := List.find?_eq_some_iff_append.mp hx
    have htake : x ∈ (n.path exec).takeWhile fun y => y.height ≥ x.height := by
      rw [hsplit, List.takeWhile_append_of_pos]
      · rw [List.takeWhile_cons_of_pos (by simp)]
        simp
      · intro y hy
        have := hhigh y hy
        simp only [decide_eq_true_eq, Bool.not_eq_true', decide_eq_false_iff_not] at this hlow ⊢
        omega
    have hany : ((n.path exec).takeWhile fun y => y.height ≥ x.height).any (fun y => y.id = x.id) :=
      List.any_eq_true.mpr ⟨x, htake, by simp⟩
    simp only [Replica.retained, hany, Bool.true_or]
  next =>
    have hid := (ht _ base hb).1
    refine ⟨hid.symm ▸ hb, h.lookup_of_retained ht (hid.symm ▸ hb) ?_⟩
    simp [Replica.retained, hid]

theorem Planted.gc (h : Planted n) : Planted n.gcLocked.1 := by
  rcases gcLocked_cases n with heq | ⟨exec, base, cp, _, _, c⟩
  · rw [heq]
    exact h
  · obtain ⟨g, hg⟩ := GoMap.mem_iff_lookup.mp h.genesis
    refine ⟨h.tree.sub fun _ _ hb => c.sub hb, ?_, ?_, fun id l hl => h.parked id l (c.parked id l hl)⟩
    · refine GoMap.mem_iff_lookup.mpr ⟨g, c.lookup_of_retained h.tree hg ?_⟩
      simp [Replica.retained, (h.tree _ g hg).1]
    · rw [c.gcBase]
      exact GoMap.mem_iff_lookup.mpr ⟨base, (c.base_lookup h.tree).2⟩

theorem gcLocked_checkpoint {cp : Replica.Checkpoint} (h : n.gcLocked.2 = some cp) :
    ∀ b ∈ cp.blocks, b ∈ n.blocks.values := by
  unfold Replica.gcLocked at h
  split at h
  · cases h
  split at h
  · cases h
  split at h
  · cases h
  obtain rfl := Option.some.inj h
  intro b hb
  exact (List.mem_filter.mp ((List.mem_insertionSort _).mp hb)).1

/-! ## 5. Restarts -/

/-- The tree, its base, the parked blocks and the view changes are untouched. -/
structure SameTree (n n' : Replica) : Prop where
  blocks : n'.blocks = n.blocks
  gcBase : n'.gcBase = n.gcBase
  pendingBlocks : n'.pendingBlocks = n.pendingBlocks
  vcs : n'.vcs = n.vcs

theorem Planted.congr (h : Planted n) (hs : SameTree n n') : Planted n' where
  tree := hs.blocks ▸ h.tree
  genesis := hs.blocks ▸ h.genesis
  base := by rw [hs.gcBase, hs.blocks]; exact h.base
  parked := h.parked.congr hs.pendingBlocks

theorem foldl_markApplied_eq : ∀ (l : List Block) (n : Replica), ∃ a w o,
    l.foldl (fun n b => n.markAppliedLocked b.id) n = { n with applied := a, notify := w, out := o }
  | [], n => ⟨n.applied, n.notify, n.out, rfl⟩
  | b :: l, n => by
    obtain ⟨a, w, o, h, _⟩ := markAppliedLocked_eq b.id n
    obtain ⟨a', w', o', h'⟩ := foldl_markApplied_eq l (n.markAppliedLocked b.id)
    refine ⟨a', w', o', ?_⟩
    rw [List.foldl_cons, h', h]

theorem Planted.newborn (h : Newborn n) : Planted n :=
  ⟨h.grown, h.genesis_mem, h.gcBase ▸ h.genesis_mem, h.parkedSound⟩

theorem Planted.loadCheckpoint (h : Planted n) {cp : Replica.Checkpoint}
    (hcp : ∀ b ∈ cp.blocks, IsGenesis b ∨ b.Sound) : Planted (n.loadCheckpoint cp) := by
  have hempty : Grown ∅ := fun id b hb => absurd hb (by simp [AList.lookup_empty])
  have hblocks := Grown.foldl_put cp.blocks ∅ hempty hcp
  unfold Replica.loadCheckpoint
  dsimp only
  generalize hm : (cp.blocks.foldl (fun m b => m.insert b.id b) ∅ : GoMap BlockID Block) = m
    at hblocks
  -- genesis is put back if the file does not have it
  have hroot : Grown (if genesisID ∈ m then m else m.insert genesisID (genesisBlock n.all).1) ∧
      genesisID ∈ (if genesisID ∈ m then m else m.insert genesisID (genesisBlock n.all).1) := by
    split
    next hin => exact ⟨hblocks, hin⟩
    next => exact ⟨hblocks.put (b := (genesisBlock n.all).1) (Or.inl ⟨rfl, rfl, rfl, rfl, rfl⟩),
      (AList.mem_insert _).mpr (Or.inl rfl)⟩
  generalize (if genesisID ∈ m then m else m.insert genesisID (genesisBlock n.all).1) = blocks
    at hroot
  have hbase : (if cp.gcBase = noID ∨ cp.gcBase ∉ blocks then genesisID else cp.gcBase) ∈ blocks := by
    split
    · exact hroot.2
    next hin => exact not_not.mp (not_or.mp hin).2
  generalize (if cp.gcBase = noID ∨ cp.gcBase ∉ blocks then genesisID else cp.gcBase) = base
    at hbase
  split
  · exact ⟨hroot.1, hroot.2, hbase, h.parked.congr rfl⟩
  · obtain ⟨a, w, o, heq⟩ := foldl_markApplied_eq
      (Replica.path { n with
        blocks := blocks, gcBase := base, qcHigh := cp.qc, head := cp.head, bExec := cp.bExec,
        bLock := cp.bLock, epoch := cp.epoch, vHeight := cp.vHeight, sets := cp.sets } _)
      { n with
        blocks := blocks, gcBase := base, qcHigh := cp.qc, head := cp.head, bExec := cp.bExec,
        bLock := cp.bLock, epoch := cp.epoch, vHeight := cp.vHeight, sets := cp.sets }
    rw [heq]
    exact ⟨hroot.1, hroot.2, hbase, h.parked.congr rfl⟩

theorem Planted.applyRecoveredEntry (h : Planted n) (hpe : ∀ b, pe = .block b → b.Sound) :
    Planted (n.applyRecoveredEntry pe) := by
  cases pe with
  | block b =>
    unfold Replica.applyRecoveredEntry
    dsimp only
    split
    · exact h
    split
    · exact h
    split
    · exact h
    · have grow : ∀ {x : BlockID}, x ∈ n.blocks → x ∈ n.blocks.insert b.id b :=
        fun hx => (AList.mem_insert _).mpr (Or.inr hx)
      exact ⟨h.tree.insert (hpe b rfl), grow h.genesis, grow h.base, h.parked.congr rfl⟩
  | qc qc => exact h.congr ⟨rfl, rfl, rfl, rfl⟩
  | applied id =>
    unfold Replica.applyRecoveredEntry
    dsimp only
    split
    · exact h.congr ⟨rfl, rfl, rfl, rfl⟩
    · exact h
  | voted v =>
    unfold Replica.applyRecoveredEntry
    dsimp only
    split
    · exact h.congr ⟨rfl, rfl, rfl, rfl⟩
    · exact h

theorem Planted.replay : ∀ (log : List PersistEntry) (n : Replica), Planted n →
    (∀ b, .block b ∈ log → b.Sound) →
    Planted (log.foldl (fun n pe => n.applyRecoveredEntry pe) n)
  | [], _, h, _ => h
  | _ :: log, _, h, hlog => Planted.replay log _
      (h.applyRecoveredEntry fun b hb => hlog b (hb ▸ List.mem_cons_self))
      fun b hb => hlog b (List.mem_cons_of_mem _ hb)

theorem foldl_recoverQC_replica (qcs : List QC) (r : Replica.Recovered) : ∃ s e,
    (qcs.foldl (Replica.recoverQC E) r).replica = { r.replica with sets := s, epoch := e } := by
  refine Replica.foldl_recoverQC_keeps
    (P := fun x => ∃ s e, x.replica = { r.replica with sets := s, epoch := e })
    (fun _ _ _ h => h) (fun x _ gp h _ => ?_) qcs r ⟨_, _, rfl⟩
  obtain ⟨s, e, h⟩ := h
  exact ⟨_, _, by rw [activateTransitionLocked_eq, h]⟩

theorem finishRecovery_frame (n : Replica) : ∃ s e qc l x a w o,
    n.finishRecovery E = { n with
      sets := s, epoch := e, qcHigh := qc, head := qc.nodeID, bLock := l, bExec := x
      applied := a, notify := w, out := o, recoverQCs := [], recoverExec := noID } := by
  unfold Replica.finishRecovery Replica.markPathApplied
  dsimp only
  obtain ⟨s, e, h⟩ := foldl_recoverQC_replica (E := E) n.recoverQCs
    { replica := n, qcHigh := n.qcHigh, lock := n.blockAt n.bLock, exec := n.blockAt n.bExec }
  generalize n.recoverQCs.foldl (Replica.recoverQC E)
    { replica := n, qcHigh := n.qcHigh, lock := n.blockAt n.bLock, exec := n.blockAt n.bExec } = r
    at h
  generalize (if r.qcHigh.nodeID ∈ r.replica.blocks then _ else _ : Block) = exec
  generalize (if r.qcHigh.nodeID ∈ r.replica.blocks then r.qcHigh else r.replica.qcHigh) = qc
  obtain ⟨a, w, o, heq⟩ := foldl_markApplied_eq
    ((Replica.path { r.replica with
      qcHigh := qc, head := qc.nodeID, bLock := r.lock.id, bExec := exec.id } exec).takeWhile
        fun cur => cur.id ≠ noID)
    { r.replica with qcHigh := qc, head := qc.nodeID, bLock := r.lock.id, bExec := exec.id }
  rw [heq, h]
  exact ⟨s, e, qc, _, _, a, w, o, rfl⟩

theorem SameTree.finishRecovery (n : Replica) : SameTree n (n.finishRecovery E) := by
  obtain ⟨s, e, qc, l, x, a, w, o, h⟩ := finishRecovery_frame (E := E) n
  rw [h]
  exact ⟨rfl, rfl, rfl, rfl⟩

theorem Planted.reopen (hn : K.reopen E cp log = .ok n)
    (hcp : ∀ c, cp = some c → ∀ b ∈ c.blocks, IsGenesis b ∨ b.Sound)
    (hlog : ∀ b, .block b ∈ log → b.Sound) : Planted n := by
  unfold Setup.reopen at hn
  split at hn
  · cases hn
  next n₀ hn₀ =>
    obtain rfl := Except.ok.inj hn
    have h₀ := Planted.newborn (Newborn.fresh hn₀)
    refine Planted.congr ?_ (SameTree.finishRecovery _)
    refine Planted.congr (Planted.replay log _ ?_ hlog) ⟨rfl, rfl, rfl, rfl⟩
    cases cp with
    | none => exact h₀
    | some c => exact h₀.loadCheckpoint (hcp c rfl)

/-- `n` with what recovery may write taken from `m`. -/
def Replica.restoring (n m : Replica) : Replica := { n with
  blocks := m.blocks, gcBase := m.gcBase, qcHigh := m.qcHigh, head := m.head, bLock := m.bLock
  bExec := m.bExec, vHeight := m.vHeight, sets := m.sets, epoch := m.epoch, applied := m.applied
  notify := m.notify, out := m.out, recoverQCs := m.recoverQCs, recoverExec := m.recoverExec
  logStore := m.logStore }

theorem restoring_trans {a b c : Replica} (h₁ : b = a.restoring b) (h₂ : c = b.restoring c) :
    c = a.restoring c :=
  h₂.trans (congrArg (fun b => b.restoring c) h₁)

theorem restoring_loadCheckpoint (c : Replica.Checkpoint) (n : Replica) :
    n.loadCheckpoint c = n.restoring (n.loadCheckpoint c) := by
  unfold Replica.loadCheckpoint
  dsimp only
  split
  · rfl
  · generalize Replica.path _ _ = l
    obtain ⟨a, w, o, heq⟩ := foldl_markApplied_eq l _
    rw [heq]
    rfl

theorem restoring_replay : ∀ (log : List PersistEntry) (n : Replica),
    log.foldl (fun n pe => n.applyRecoveredEntry pe) n =
      n.restoring (log.foldl (fun n pe => n.applyRecoveredEntry pe) n)
  | [], _ => rfl
  | pe :: log, n => by
    have hentry : n.applyRecoveredEntry pe = n.restoring (n.applyRecoveredEntry pe) := by
      unfold Replica.applyRecoveredEntry
      cases pe with
      | block b => dsimp only; split_ifs <;> rfl
      | qc qc => rfl
      | applied id => dsimp only; split_ifs <;> rfl
      | voted h => dsimp only; split_ifs <;> rfl
    exact restoring_trans hentry (restoring_replay log _)

theorem restoring_logStore (durable : Bool) (n : Replica) :
    { n with logStore := durable } = n.restoring { n with logStore := durable } := rfl

theorem restoring_finishRecovery (n : Replica) :
    n.finishRecovery E = n.restoring (n.finishRecovery E) := by
  obtain ⟨s, e, qc, l, x, a, w, o, h⟩ := finishRecovery_frame (E := E) n
  rw [h]
  rfl

/-- **What recovery leaves alone** is as in a replica opened for the first time. -/
theorem Setup.reopen_restoring (hn : K.reopen E cp log = .ok n) :
    ∃ n₀, K.fresh E = .ok n₀ ∧ n = n₀.restoring n := by
  unfold Setup.reopen at hn
  split at hn
  · cases hn
  next n₀ hn₀ =>
    refine ⟨n₀, hn₀, ?_⟩
    obtain rfl := Except.ok.inj hn
    refine restoring_trans (restoring_trans (restoring_trans ?_ (restoring_replay log _))
      (restoring_logStore K.durable _)) (restoring_finishRecovery _)
    cases cp with
    | none => rfl
    | some c => exact restoring_loadCheckpoint c n₀

theorem Setup.reopen_vcs (hn : K.reopen E cp log = .ok n) : n.vcs = ∅ := by
  obtain ⟨n₀, hn₀, h⟩ := K.reopen_restoring hn
  rw [h]
  exact (Newborn.fresh hn₀).vcs

/-- A checkpoint of the files was there before, or the collection has just taken it. -/
theorem Host.act_files {e : Event} {cp : Replica.Checkpoint}
    (hcp : (s.act E K e).checkpoint = some cp ∨ (s.act E K e).taken = some cp) :
    (s.checkpoint = some cp ∨ s.taken = some cp) ∨ s.node.gcLocked.2 = some cp := by
  cases e with
  | call inp ctx writes => exact Or.inl hcp
  | gc =>
    rcases hcp with hcp | hcp
    · exact Or.inl (Or.inl hcp)
    · rcases Option.or_eq_some_iff.mp hcp with ht | ⟨-, ht⟩
      · exact Or.inr ht
      · exact Or.inl (Or.inr ht)
  | writeCheckpoint =>
    rcases hcp with hcp | hcp
    · rcases Option.or_eq_some_iff.mp hcp with ht | ⟨-, ht⟩
      · exact Or.inl (Or.inr ht)
      · exact Or.inl (Or.inl ht)
    · cases hcp
  | rotate => exact Or.inl hcp
  | restart =>
    unfold Host.act at hcp
    dsimp only at hcp
    split at hcp
    · exact Or.inl hcp
    · exact Or.inl (Or.inl (hcp.resolve_right (by simp)))

/-- Whatever happens to a host, its tree stays grown and its disk fit for one. -/
theorem Host.Stocked.act (h : s.Stocked) (e : Event) : (s.act E K e).Stocked := by
  have hfiles : ∀ cp, (s.act E K e).checkpoint = some cp ∨ (s.act E K e).taken = some cp →
      ∀ b ∈ cp.blocks, IsGenesis b ∨ b.Sound := fun cp hcp =>
    (Host.act_files hcp).elim (h.files cp) fun ht b hb => by
      obtain ⟨k, hk⟩ := GoMap.mem_values_iff.mp (gcLocked_checkpoint ht b hb)
      exact (h.node.tree k b hk).2
  cases e with
  | call inp ctx writes =>
    have hr : Planted (s.ready writes) := h.node.congr ⟨rfl, rfl, rfl, rfl⟩
    obtain ⟨h₁, hrec⟩ := hr.handle (E := E) (C := ctx) rfl inp
    exact ⟨h₁, fun b hb => (List.mem_append.mp hb).elim (h.log b) (hrec b), hfiles⟩
  | gc => exact ⟨h.node.gc, h.log, hfiles⟩
  | writeCheckpoint => exact ⟨h.node, h.log, hfiles⟩
  | rotate => exact ⟨h.node, fun b hb => absurd hb (by simp [Host.act]), hfiles⟩
  | restart =>
    revert hfiles
    unfold Host.act
    dsimp only
    split
    · exact fun _ => h
    next n hn =>
      exact fun hfiles =>
        ⟨Planted.reopen hn (fun c hc => h.files c (Or.inl hc)) h.log, h.log, hfiles⟩

theorem Host.Stocked.start (h₀ : K.fresh E = .ok n₀) : (Host.start K n₀).Stocked := by
  have hn := Newborn.fresh h₀
  refine ⟨(Planted.newborn hn).congr ⟨rfl, rfl, rfl, rfl⟩, fun b hb => ?_, fun cp hcp => ?_⟩
  · exact absurd hb (by simp [Host.start])
  · exact absurd hcp (by simp [Host.start])

/-- **The tree is grown in every reachable state**, whatever the network delivers and however
often the host is restarted. -/
theorem Host.planted (h₀ : K.fresh E = .ok n₀)
    (hrun : (Host.machine E K).Steps (Host.start K n₀) s) : s.Stocked :=
  hrun.invariant (P := Host.Stocked) (fun _ e h _ => h.act e) (Host.Stocked.start h₀)

end Cachey.HotStuff
