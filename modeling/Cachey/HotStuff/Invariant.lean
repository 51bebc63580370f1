/-
# What a correct HotStuff replica keeps

The invariant that connects the state of one correct replica with the abstract vote history of
`Cachey.Lib.VoteChain`, and its preservation by the functions the handlers are built from.  The
history `H` lists the votes of ALL correct replicas; between two votes it does not change, so
everything up to the two places where a vote is signed (`castVote`, `proposeLocked`) keeps the
invariant for one fixed `H`.

A certificate enters the argument through one fact only: its height is the height of the block
it names, and that block is certified in the history (`Certifies`).  A certificate that has been
received but not yet validated is `Believable`: IF its signatures verify, it certifies.

Committing is where the replica's code relies on the history: the chain rule commits the
grandparent `g` of a certified block `c`, and the invariant is kept provided `c` is `GapFree` --
no vote on record at a height inside a gap of `g <- p <- c` is off the branch of `g`.
-/
import Cachey.HotStuff.System
import Cachey.Lib.VoteChain

namespace Cachey.HotStuff

open VoteChain (Voted Extends)

/-! ## 1. The cluster as a world of votes -/

/-- The block tree of content digests, with the cluster's members. -/
def Cluster.world (K : Cluster) : VoteChain.World String BlockID where
  members := K.members.toFinset
  faulty := K.byzantine.toFinset
  f := K.f
  height := BlockID.height
  parent := BlockID.parent
  root := genesisID
  rootHeight := rfl
  rootParent := rfl

/-- The votes of the correct replicas, newest first. -/
abbrev History := List (VoteChain.Vote String BlockID)

theorem Cluster.faultBound (K : Cluster) :
    FaultBound K.world.members K.world.faulty K.world.f where
  size := by
    change K.members.toFinset.card = 3 * K.f + 1
    rw [List.toFinset_card_of_nodup K.nodup, K.size]
  bound := by
    change (K.members.toFinset ∩ K.byzantine.toFinset).card ≤ K.f
    have hset : K.members.toFinset ∩ K.byzantine.toFinset =
        (K.members.filter fun m => m ∈ K.byzantine).toFinset := by
      ext m
      simp
    rw [hset]
    exact (List.toFinset_card_le _).trans K.faults

theorem Cluster.correct_iff (K : Cluster) {r : String} :
    K.Correct r ↔ r ∈ K.world.members ∧ r ∉ K.world.faulty := by
  simp [Cluster.Correct, Cluster.world]

namespace BlockID

/-- The digests on the parent chain, the root string left out. -/
def line : BlockID → List BlockID
  | raw _ => []
  | digest v h p cmd => digest v h p cmd :: p.line

variable {a : BlockID}

theorem mem_ancestors_iff : ∀ {b : BlockID},
    a ∈ b.ancestors ↔ Extends BlockID.parent b a
  | raw t => by
    have hfix : ∀ k, BlockID.parent^[k] (raw t) = raw t := by
      intro k
      induction k with
      | zero => rfl
      | succ k ih => rw [Function.iterate_succ_apply]; exact ih
    simp only [ancestors, List.mem_singleton]
    constructor
    · rintro rfl; exact Extends.refl _ _
    · rintro ⟨k, rfl⟩; exact hfix k
  | digest v h p cmd => by
    simp only [ancestors, List.mem_cons, mem_ancestors_iff (b := p)]
    constructor
    · rintro (rfl | hp)
      · exact Extends.refl _ _
      · exact Extends.of_parent hp
    · intro hx
      by_cases heq : a = digest v h p cmd
      · exact Or.inl heq
      · exact Or.inr (hx.parent_of_ne (Ne.symm heq))

theorem mem_ancestors_of_mem_line : ∀ {b : BlockID}, a ∈ b.line → a ∈ b.ancestors
  | raw _, h => absurd h (by simp [line])
  | digest v h p cmd, hm => by
    simp only [line, ancestors, List.mem_cons] at hm ⊢
    exact hm.imp_right mem_ancestors_of_mem_line

theorem line_eq_takeWhile : ∀ {b : BlockID}, a ∈ b.ancestors →
    b.line = (b.ancestors.takeWhile fun x => x ≠ a) ++ a.line
  | raw t, h => by
    simp only [ancestors, List.mem_singleton] at h
    subst h
    simp [ancestors, line]
  | digest v h p cmd, hm => by
    simp only [ancestors, List.mem_cons] at hm
    by_cases heq : a = digest v h p cmd
    · subst heq
      simp [ancestors]
    · have hp : a ∈ p.ancestors := hm.resolve_left heq
      have hne : digest v h p cmd ≠ a := Ne.symm heq
      simp [ancestors, hne, line, line_eq_takeWhile hp]

end BlockID

/-! ## 2. Certificates, blocks, validator sets -/

section Facts

variable (K : Cluster) (H : History)

/-- What a genuine certificate says: its block is certified, at the block's own height. -/
def Certifies (qc : QC) : Prop :=
  qc.height = qc.nodeID.height ∧ K.world.Certified H qc.nodeID

/-- A validator set with the cluster's members, quorum and keys. -/
structure GoodSet (E : Env) (S : ValidatorSet) : Prop where
  members : ∀ m, S.has m = true → m ∈ K.members
  quorum : S.quorum = 2 * K.f + 1
  keys : ∀ m pub, S.publicKeys.lookup m = some pub → pub = K.key E m

/-- A certificate that certifies if its signatures verify. -/
def Believable (E : Env) (qc : QC) : Prop :=
  ∀ S, GoodSet K E S → 2 * K.f + 1 ≤ qc.votes.len →
    (∀ voter sig, qc.votes.lookup voter = some sig →
      S.has voter = true ∧ verifyInSet E S voter sig (.vote qc.height qc.nodeID voter) = true) →
    Certifies K H qc

/-- A block fit for the tree: content-addressed, with a genuine certificate of its parent, which
is lower. -/
structure Fit (E : Env) (b : Block) : Prop where
  addressed : b.id = blockID b.view b.height b.parent b.cmd
  justified : ∃ qc, b.justify = some qc ∧ qc.nodeID = b.parent ∧ Certifies K H qc
  ascends : b.parent.height < b.height
  plain : isMembershipBlock E b = false

/-- The commit chain below `c` is clean: no vote inside one of its gaps is off the branch. -/
def GapFree (c : BlockID) : Prop :=
  ∀ e ∈ H, (c.parent.parent.height < e.block.height ∧ e.block.height < c.parent.height) ∨
      (c.parent.height < e.block.height ∧ e.block.height < c.height) →
    Extends BlockID.parent e.block c.parent.parent

end Facts

variable {K : Cluster} {H H' : History} {qc : QC} {E : Env}

theorem Certifies.mono (h : Certifies K H qc) (hsub : ∀ e ∈ H, e ∈ H') : Certifies K H' qc :=
  ⟨h.1, h.2.mono hsub⟩

theorem Believable.mono (h : Believable K H E qc) (hsub : ∀ e ∈ H, e ∈ H') : Believable K H' E qc :=
  fun S hS hl hv => (h S hS hl hv).mono hsub

theorem Certifies.believable (h : Certifies K H qc) : Believable K H E qc :=
  fun _ _ _ _ => h

theorem Fit.mono {b : Block} (h : Fit K H E b) (hsub : ∀ e ∈ H, e ∈ H') : Fit K H' E b := by
  obtain ⟨qc, hq, hn, hc⟩ := h.justified
  exact ⟨h.addressed, ⟨qc, hq, hn, hc.mono hsub⟩, h.ascends, h.plain⟩

section FitFacts

variable {K : Cluster} {H : History} {E : Env} {b : Block}

theorem Fit.id_height (h : Fit K H E b) : b.id.height = b.height := by
  rw [h.addressed]; rfl

theorem Fit.id_parent (h : Fit K H E b) : b.id.parent = b.parent := by
  rw [h.addressed]; rfl

theorem Fit.ne_genesis (h : Fit K H E b) : b.id ≠ genesisID := by
  rw [h.addressed]; simp [blockID, genesisID]

theorem Fit.parent_certified (h : Fit K H E b) : K.world.Certified H b.parent := by
  obtain ⟨qc, _, hn, hc⟩ := h.justified
  exact hn ▸ hc.2

end FitFacts

/-- The root of the tree. -/
structure IsGenesis (b : Block) : Prop where
  id_eq : b.id = genesisID
  parent_eq : b.parent = noID
  height_eq : b.height = 0
  cmd_eq : b.cmd = []
  epoch_eq : b.epoch = 0

/-! ## 3. The tree and its paths -/

/-- A tree of fit blocks, closed under parents, with genesis at the root. -/
structure Rooted (K : Cluster) (H : History) (E : Env) (blocks : GoMap BlockID Block) : Prop where
  root : ∃ g, blocks.lookup genesisID = some g
  node : ∀ id b, blocks.lookup id = some b →
    b.id = id ∧ (IsGenesis b ∨ Fit K H E b ∧ b.parent ∈ blocks)

/-- A block that is in the tree or could be put into it. -/
def Placed (K : Cluster) (H : History) (E : Env) (blocks : GoMap BlockID Block) (b : Block) :
    Prop :=
  IsGenesis b ∨ Fit K H E b ∧ b.parent ∈ blocks

section Paths

variable {K : Cluster} {H : History} {E : Env} {blocks : GoMap BlockID Block} {b : Block}
  {n : Replica}

theorem Rooted.mono {H' : History} (h : Rooted K H E blocks) (hsub : ∀ e ∈ H, e ∈ H') :
    Rooted K H' E blocks where
  root := h.root
  node := fun id b hb => ⟨(h.node id b hb).1,
    (h.node id b hb).2.imp_right fun hf => ⟨hf.1.mono hsub, hf.2⟩⟩

theorem Rooted.insert (h : Rooted K H E blocks) (hb : Fit K H E b) (hp : b.parent ∈ blocks) :
    Rooted K H E (blocks.insert b.id b) where
  root := by
    obtain ⟨g, hg⟩ := h.root
    rw [GoMap.lookup_insert_of]
    by_cases hid : genesisID = b.id
    · exact ⟨b, by rw [if_pos hid]⟩
    · exact ⟨g, by rw [if_neg hid]; exact hg⟩
  node := by
    intro id x hx
    rw [GoMap.lookup_insert_of] at hx
    have grow : ∀ {y : BlockID}, y ∈ blocks → y ∈ blocks.insert b.id b :=
      fun hy => (AList.mem_insert _).mpr (Or.inr hy)
    by_cases hid : id = b.id
    · rw [if_pos hid] at hx
      obtain rfl := Option.some.inj hx
      exact ⟨hid.symm, Or.inr ⟨hb, grow hp⟩⟩
    · rw [if_neg hid] at hx
      obtain ⟨h₁, h₂⟩ := h.node id x hx
      exact ⟨h₁, h₂.imp_right fun hf => ⟨hf.1, grow hf.2⟩⟩

theorem Rooted.heightOf (h : Rooted K H E n.blocks) {id : BlockID} (hid : id ∈ n.blocks) :
    n.heightOf id = id.height := by
  obtain ⟨b, hb⟩ := GoMap.mem_iff_lookup.mp hid
  obtain ⟨rfl, hk | hf⟩ := h.node id b hb
  · simp [Replica.heightOf, hb, hk.id_eq, hk.height_eq, genesisID, BlockID.height]
  · simp [Replica.heightOf, hb, hf.1.id_height]

theorem IsGenesis.walk (h : IsGenesis b) :
    ∀ (fuel : ℕ), Cachey.HotStuff.walk blocks fuel b = [b]
  | 0 => rfl
  | fuel + 1 => by simp [Cachey.HotStuff.walk, h.parent_eq]

theorem Rooted.noID_notMem (h : Rooted K H E blocks) : noID ∉ blocks := by
  intro hno
  obtain ⟨p, hp⟩ := GoMap.mem_iff_lookup.mp hno
  obtain ⟨hid, hg | hf⟩ := h.node _ p hp
  · rw [hg.id_eq] at hid
    exact absurd hid (by simp [genesisID, noID])
  · rw [hf.1.addressed] at hid
    exact absurd hid (by simp [blockID, noID])

/-- **The walk spells out the digest.**  The ids met on the way to the root are the ancestors
of the block's id, and every block met is the first one or stands in the tree. -/
theorem Rooted.walk_ids (h : Rooted K H E blocks) : ∀ (fuel : ℕ) (b : Block),
    Placed K H E blocks b → (IsGenesis b ∨ b.parent.depth < fuel) →
    (walk blocks fuel b).map (·.id) = b.id.ancestors ∧
      ∀ x ∈ walk blocks fuel b, x = b ∨ blocks.lookup x.id = some x := by
  intro fuel
  induction fuel with
  | zero =>
    rintro b _ (hg | hd)
    · simp [hg.walk, hg.id_eq, genesisID, BlockID.ancestors]
    · exact absurd hd (by omega)
  | succ fuel ih =>
    rintro b (hg | ⟨hf, hp⟩) hd
    · simp [hg.walk, hg.id_eq, genesisID, BlockID.ancestors]
    · obtain ⟨p, hlp⟩ := GoMap.mem_iff_lookup.mp hp
      obtain ⟨hpid, hplaced⟩ := h.node _ p hlp
      have hne : b.parent ≠ noID := fun hno => h.noID_notMem (hno ▸ hp)
      have hw : walk blocks (fuel + 1) b = b :: walk blocks fuel p := by
        simp [walk, hne, hlp]
      have hdp : IsGenesis p ∨ p.parent.depth < fuel := by
        refine hplaced.imp_right fun hf' => ?_
        rcases hd with hg | hd
        · exact absurd hg.id_eq hf.ne_genesis
        · rw [← hpid, hf'.1.addressed] at hd
          simp only [blockID, BlockID.depth] at hd
          omega
      obtain ⟨ih₁, ih₂⟩ := ih p hplaced hdp
      rw [hw]
      refine ⟨?_, ?_⟩
      · rw [List.map_cons, ih₁, hpid, hf.addressed]
        rfl
      · intro x hx
        rcases List.mem_cons.mp hx with rfl | hx
        · exact Or.inl rfl
        · rcases ih₂ x hx with rfl | hl
          · exact Or.inr (by rw [hpid]; exact hlp)
          · exact Or.inr hl

theorem Rooted.path_ids (h : Rooted K H E n.blocks) (hb : Placed K H E n.blocks b) :
    (n.path b).map (·.id) = b.id.ancestors ∧
      ∀ x ∈ n.path b, x = b ∨ n.blocks.lookup x.id = some x :=
  h.walk_ids _ b hb (Or.inr (Nat.lt_succ_self _))

theorem Rooted.extendsLocked (h : Rooted K H E n.blocks) {l : Block} (hf : Fit K H E b)
    (hp : b.parent ∈ n.blocks) (hx : n.extendsLocked b (some l) = true) :
    Extends BlockID.parent b.parent l.id := by
  simp only [Replica.extendsLocked, List.any_eq_true, Bool.and_eq_true, decide_eq_true_eq] at hx
  obtain ⟨cur, hcur, hne, hcl⟩ := hx
  have hplaced : Placed K H E n.blocks b := Or.inr ⟨hf, hp⟩
  obtain ⟨hids, hin⟩ := h.path_ids hplaced
  have hanc : Extends BlockID.parent b.id cur.id := by
    rw [← BlockID.mem_ancestors_iff, ← hids]
    exact List.mem_map_of_mem hcur
  -- the block found is not genesis, whose parent field is empty
  have hfc : Fit K H E cur := by
    rcases hin cur hcur with rfl | hl
    · exact hf
    · rcases (h.node _ cur hl).2 with hg | hf'
      · exact absurd hg.parent_eq hne
      · exact hf'.1
  by_cases heq : b.id = cur.id
  · have : b.parent = l.id := by rw [← hf.id_parent, heq, hfc.id_parent, hcl]
    exact this ▸ Extends.refl _ _
  · have hstep := hanc.parent_of_ne heq
    rw [hf.id_parent] at hstep
    refine hstep.trans (Extends.of_parent ?_)
    rw [hfc.id_parent, hcl]
    exact Extends.refl _ _

end Paths

/-! ## 4. The invariant -/

/-- **What a correct replica `r` keeps**, with respect to the votes `H` of all correct replicas
and the blocks `X` it executed in earlier steps. -/
structure ReplicaInv (E : Env) (K : Cluster) (H : History) (X : List BlockID) (r : String)
    (n : Replica) : Prop where
  me : n.id = r
  sets : ∀ e S, n.sets.lookup e = some S → e = 0 ∧ GoodSet K E S
  set0 : ∃ S, n.sets.lookup 0 = some S
  base : n.gcBase = genesisID
  tree : Rooted K H E n.blocks
  parked : ∀ id l, n.pendingBlocks.lookup id = some l → ∀ b ∈ l, b.parent = id ∧ Fit K H E b
  high : Certifies K H n.qcHigh
  highIn : n.qcHigh.nodeID ∈ n.blocks
  lockIn : n.bLock ∈ n.blocks
  lockLe : n.bLock.height ≤ n.qcHigh.height
  execIn : n.bExec ∈ n.blocks
  execCommitted : K.world.Committed H n.bExec
  want : ∀ qc, n.wantBase = some qc → Certifies K H qc
  vcs : ∀ view m, n.vcs.lookup view = some m → ∀ sender vc, m.lookup sender = some vc →
    ∀ qc, vc.highQC = some qc → Believable K H E qc
  votes : ∀ id m, n.votes.lookup id = some m → ∀ voter sig, m.lookup voter = some sig →
    voter ∈ K.members ∧ (voter ∉ K.byzantine → Voted H voter id)
  votesIn : ∀ id ∈ n.votes, id ∈ n.blocks
  mine : ∀ e ∈ H, e.voter = r → e.block ∈ n.blocks ∧ e.lockAfter ≤ n.bLock.height
  signed : ∀ h id v, (h, id, v) ∈ votesOf n.out →
    v = r ∧ h = id.height ∧ Voted H r id
  ledger : execsOf n.out ++ X = n.bExec.line

/-- A change of state the invariant does not see: what it reads is the same, and the journal
has no new vote and no new execution. -/
structure Quiet (n n' : Replica) : Prop where
  id : n'.id = n.id
  sets : n'.sets = n.sets
  gcBase : n'.gcBase = n.gcBase
  blocks : n'.blocks = n.blocks
  pendingBlocks : n'.pendingBlocks = n.pendingBlocks
  qcHigh : n'.qcHigh = n.qcHigh
  bLock : n'.bLock = n.bLock
  bExec : n'.bExec = n.bExec
  vHeight : n'.vHeight = n.vHeight
  wantBase : n'.wantBase = n.wantBase
  vcs : n'.vcs = n.vcs
  votes : n'.votes = n.votes
  signed : votesOf n'.out = votesOf n.out
  execs : execsOf n'.out = execsOf n.out

theorem Quiet.refl (n : Replica) : Quiet n n :=
  ⟨rfl, rfl, rfl, rfl, rfl, rfl, rfl, rfl, rfl, rfl, rfl, rfl, rfl, rfl⟩

theorem Quiet.trans {a b c : Replica} (h₁ : Quiet a b) (h₂ : Quiet b c) : Quiet a c :=
  ⟨h₂.id.trans h₁.id, h₂.sets.trans h₁.sets, h₂.gcBase.trans h₁.gcBase,
    h₂.blocks.trans h₁.blocks, h₂.pendingBlocks.trans h₁.pendingBlocks, h₂.qcHigh.trans h₁.qcHigh, h₂.bLock.trans h₁.bLock,
    h₂.bExec.trans h₁.bExec, h₂.vHeight.trans h₁.vHeight, h₂.wantBase.trans h₁.wantBase,
    h₂.vcs.trans h₁.vcs, h₂.votes.trans h₁.votes, h₂.signed.trans h₁.signed,
    h₂.execs.trans h₁.execs⟩

section Quietness

variable {E : Env} {K : Cluster} {H : History} {X : List BlockID} {r : String} {n n' : Replica}

theorem ReplicaInv.quiet (h : ReplicaInv E K H X r n) (q : Quiet n n') :
    ReplicaInv E K H X r n' where
  me := q.id.trans h.me
  sets := q.sets ▸ h.sets
  set0 := q.sets ▸ h.set0
  base := q.gcBase.trans h.base
  tree := q.blocks ▸ h.tree
  parked := q.pendingBlocks ▸ h.parked
  high := q.qcHigh ▸ h.high
  highIn := by rw [q.qcHigh, q.blocks]; exact h.highIn
  lockIn := by rw [q.bLock, q.blocks]; exact h.lockIn
  lockLe := by rw [q.bLock, q.qcHigh]; exact h.lockLe
  execIn := by rw [q.bExec, q.blocks]; exact h.execIn
  execCommitted := q.bExec ▸ h.execCommitted
  want := q.wantBase ▸ h.want
  vcs := q.vcs ▸ h.vcs
  votes := q.votes ▸ h.votes
  votesIn := by rw [q.votes, q.blocks]; exact h.votesIn
  mine := by rw [q.blocks, q.bLock]; exact h.mine
  signed := by rw [q.signed]; exact h.signed
  ledger := by rw [q.execs, q.bExec]; exact h.ledger

/-- Journal entries other than votes and executions. -/
def Effect.isQuiet (e : Effect) : Bool := e.vote.isNone && e.executed.isNone

theorem Quiet.emit {e : Effect} (n : Replica) (he : e.isQuiet = true) : Quiet n (n.emit e) where
  id := rfl
  sets := rfl
  gcBase := rfl
  blocks := rfl
  pendingBlocks := rfl
  qcHigh := rfl
  bLock := rfl
  bExec := rfl
  vHeight := rfl
  wantBase := rfl
  vcs := rfl
  votes := rfl
  signed := List.filterMap_cons_none (by
    simp only [Effect.isQuiet, Bool.and_eq_true, Option.isNone_iff_eq_none] at he
    exact he.1)
  execs := List.filterMap_cons_none (by
    simp only [Effect.isQuiet, Bool.and_eq_true, Option.isNone_iff_eq_none] at he
    exact he.2)

theorem Quiet.persistLocked (pe : PersistEntry) (n : Replica) : Quiet n (n.persistLocked pe).1 := by
  unfold Replica.persistLocked
  split
  · exact Quiet.refl n
  · exact Quiet.trans (b := { n with writes := n.writes.tail })
      ⟨rfl, rfl, rfl, rfl, rfl, rfl, rfl, rfl, rfl, rfl, rfl, rfl, rfl, rfl⟩
      (Quiet.emit _ rfl)

theorem Quiet.persistRecordLocked (pe : PersistEntry) (n : Replica) :
    Quiet n (n.persistRecordLocked pe) :=
  Quiet.persistLocked pe n

end Quietness

end Cachey.HotStuff
