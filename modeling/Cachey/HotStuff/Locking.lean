/-
# Lock and commit keep up with `qcHigh`

When `qcHigh` certifies a block `c` whose parent is `p` and whose grandparent is `g`, the replica
is locked at least as high as `p` and has executed at least as high as `g`.  `onNewQCLocked`
brings this about on every raise it makes itself.  The two other places that raise `qcHigh` --
`adoptBaseLocked` and `completeBaseLocked`, when a new leader adopts a reported certificate -- set
it BEFORE they call `onNewQCLocked`, which then takes the certificate for an old one and returns:
neither rule is run.

The property is shown for every run in which an adopted certificate has nothing left to lock or
to commit (`Absorbed`).  Two more things could break it and are shut out by the condition on events
(`Absorbing`).  A batch can go on above a block the epoch gate refused, and leave a certified block
whose parent is missing; a single responder can bring this about, since votes do not sign the epoch
and it may relabel genuine blocks.  And a collection can delete the locked block or the certified
one, when these have fallen behind the executed prefix.

* §1  The condition on events.
* §2  What is kept: `KeptUp`, with one lemma for each outcome of the chain rule.
* §3  Every run (`lock_keeps_up`).
* §4  A new leader that adopts a certificate stays behind (`lock_keeps_up_fails`).
-/
import Cachey.HotStuff.Script
import Cachey.HotStuff.Tree

namespace Cachey.HotStuff

namespace Replica

/-- **The property**: the two-chain below `qcHigh` is locked, its three-chain executed. -/
def KeepsUp (n : Replica) : Prop :=
  ∀ c p, n.blocks.lookup n.qcHigh.nodeID = some c → n.blocks.lookup c.parent = some p →
    oneChainedBy p c = true →
    p.height ≤ n.heightOf n.bLock ∧
      ∀ g, n.blocks.lookup p.parent = some g → oneChainedBy g p = true →
        g.height ≤ n.heightOf n.bExec

/-- There is nothing to lock or to commit on account of `qc`: the replica is locked as high as the
parent of the certified block, and has executed as high as its grandparent. -/
def Absorbed (n : Replica) (qc : QC) : Prop :=
  qc.nodeID.parent.height ≤ n.heightOf n.bLock ∧
    qc.nodeID.parent.parent.height ≤ n.heightOf n.bExec

instance (n : Replica) (qc : QC) : Decidable (n.Absorbed qc) := inferInstanceAs (Decidable (_ ∧ _))

end Replica

/-! ## 1. The condition on events -/

/-- A collection retains the locked block and the block `qcHigh` certifies. -/
def Replica.RetainsPointers (n : Replica) : Prop :=
  ∀ exec ∈ n.blocks.lookup n.bExec, ∀ base ∈ n.gcBoundary exec,
    ∀ id ∈ [n.bLock, n.qcHigh.nodeID], ∀ b ∈ n.blocks.lookup id, n.retained exec base b = true

/-- **The condition on an event**: what a call may adopt is absorbed, an accepted batch leaves no
gap, and a collection keeps what the pointers name. -/
def Host.Absorbing (E : Env) (s : Host) : Event → Prop
  | .call inp ctx writes =>
    (∀ qc ∈ (s.ready writes).adoptions E ctx inp, s.node.Absorbed qc) ∧
      (s.ready writes).GapFreeBatch E ctx inp
  | .gc => s.node.RetainsPointers
  | _ => True

/-- The running process, restricted to events that meet the condition. -/
def Host.absorbingMachine (E : Env) (K : Setup) : Machine Host Event :=
  (Host.machine E K).restrict fun s e => e.live = true ∧ s.Absorbing E e

/-! ## 2. What is kept -/

/-- The invariant.  A parent that is missing was collected: it is lower than the executed
prefix. -/
structure KeptUp (n : Replica) : Prop where
  tree : Grown n.blocks
  closed : ∀ id b, n.blocks.lookup id = some b →
    b.parent = noID ∨ b.parent ∈ n.blocks ∨ b.parent.height < n.bExec.height
  highIn : n.qcHigh.nodeID = noID ∨ n.qcHigh.nodeID ∈ n.blocks
  lockIn : n.bLock ∈ n.blocks
  execIn : n.bExec ∈ n.blocks
  lockHigh : n.qcHigh.nodeID.parent.height ≤ n.bLock.height
  execHigh : n.qcHigh.nodeID.parent.parent.height ≤ n.bExec.height

namespace KeptUp

variable {E : Env} {n n' : Replica} {qc : QC}

theorem keepsUp (h : KeptUp n) : n.KeepsUp := by
  intro c p hc hp _
  obtain ⟨_, hcp, hpid, _⟩ := h.tree.child hc hp
  refine ⟨?_, fun g hg _ => ?_⟩
  · rw [h.tree.heightOf h.lockIn, h.tree.height hp, ← hcp]
    exact h.lockHigh
  · obtain ⟨_, hpg, _, _⟩ := h.tree.child (by rw [← hpid] at hp; exact hp) hg
    rw [h.tree.heightOf h.execIn, h.tree.height hg, ← hpg, hpid, ← hcp]
    exact h.execHigh

theorem absorbed_iff (h : KeptUp n) : n.Absorbed qc ↔
    qc.nodeID.parent.height ≤ n.bLock.height ∧ qc.nodeID.parent.parent.height ≤ n.bExec.height := by
  unfold Replica.Absorbed
  rw [h.tree.heightOf h.lockIn, h.tree.heightOf h.execIn]

theorem congr (h : KeptUp n) (hb : n'.blocks = n.blocks) (hq : n'.qcHigh = n.qcHigh)
    (hl : n'.bLock = n.bLock) (he : n'.bExec = n.bExec) : KeptUp n' where
  tree := hb ▸ h.tree
  closed := by rw [hb, he]; exact h.closed
  highIn := by rw [hb, hq]; exact h.highIn
  lockIn := by rw [hb, hl]; exact h.lockIn
  execIn := by rw [hb, he]; exact h.execIn
  lockHigh := by rw [hq, hl]; exact h.lockHigh
  execHigh := by rw [hq, he]; exact h.execHigh

theorem insert (h : KeptUp n) {b : Block} (hs : b.Sound)
    (hp : b.parent = noID ∨ b.parent ∈ n.blocks) :
    KeptUp { n with blocks := n.blocks.insert b.id b } := by
  have grow : ∀ {x : BlockID}, x ∈ n.blocks → x ∈ n.blocks.insert b.id b :=
    fun hx => (AList.mem_insert _).mpr (Or.inr hx)
  refine { h with
    tree := h.tree.insert hs, closed := ?_, highIn := h.highIn.imp_right grow
    lockIn := grow h.lockIn, execIn := grow h.execIn }
  intro id x hx
  rw [GoMap.lookup_insert_of] at hx
  split at hx
  · obtain rfl := Option.some.inj hx
    exact hp.imp_right fun h => Or.inl (grow h)
  · exact (h.closed id x hx).imp_right fun h => h.imp_left grow

theorem raiseLock_spec (h : Grown n.blocks) (hl : n.bLock ∈ n.blocks) {p : Block} {id : BlockID}
    (hp : n.blocks.lookup id = some p) :
    ∃ lock ∈ n.blocks, n.raiseLock p = { n with bLock := lock } ∧
      id.height ≤ lock.height ∧ n.bLock.height ≤ lock.height := by
  have hph := h.height hp
  have hlh := h.heightOf hl
  have hpid := (h id p hp).1
  unfold Replica.raiseLock
  split
  next hgt =>
    refine ⟨p.id, hpid ▸ GoMap.mem_iff_lookup.mpr ⟨p, hp⟩, rfl, ?_, ?_⟩
    · rw [hpid]
    · rw [hpid]
      omega
  next hle => exact ⟨n.bLock, hl, rfl, by omega, le_refl _⟩

/-- The invariant holds, and neither the lock nor the executed prefix is lower than in `n₀`. -/
structure Ahead (n₀ n : Replica) : Prop where
  kept : KeptUp n
  lock : n₀.bLock.height ≤ n.bLock.height
  exec : n₀.bExec.height ≤ n.bExec.height

theorem ahead (h : KeptUp n) : Ahead n n := ⟨h, le_refl _, le_refl _⟩

section Chain

variable {c p g : Block}

theorem rootChain (h : KeptUp n) (hc : n.blocks.lookup qc.nodeID = some c) (hno : c.parent = noID) :
    Ahead n { n with qcHigh := qc } := by
  obtain ⟨h₁, h₂⟩ := h.tree.parent_height_of_noID hc hno
  exact ⟨{ h with
    highIn := Or.inr (GoMap.mem_iff_lookup.mpr ⟨c, hc⟩)
    lockHigh := by rw [h₁]; exact Nat.zero_le _
    execHigh := by rw [h₂]; exact Nat.zero_le _ }, le_refl _, le_refl _⟩

/-- A grandparent that is not to be committed is executed, was collected, or does not exist. -/
theorem grandparent_le (h : KeptUp n) {id : BlockID} (hp : n.blocks.lookup id = some p)
    (hex : ∀ g, n.blocks.lookup p.parent = some g → oneChainedBy g p = true →
      g.height ≤ n.heightOf n.bExec) : id.parent.height ≤ n.bExec.height := by
  by_cases hno : p.parent = noID
  · rw [(h.tree.parent_height_of_noID hp hno).1]
    exact Nat.zero_le _
  rcases (h.closed _ p hp).resolve_left hno with hmem | hlow
  · obtain ⟨g, hg⟩ := GoMap.mem_iff_lookup.mp hmem
    obtain ⟨_, hpg, _, hone⟩ := h.tree.child hp hg
    rw [hpg, ← h.tree.height hg, ← h.tree.heightOf h.execIn]
    exact hex g hg hone
  · rw [h.tree.parent hp hno]
    exact le_of_lt hlow

theorem twoChain (h : KeptUp n) (hc : n.blocks.lookup qc.nodeID = some c)
    (hp : n.blocks.lookup c.parent = some p)
    (hex : ∀ g, n.blocks.lookup p.parent = some g → oneChainedBy g p = true →
      g.height ≤ n.heightOf n.bExec) : Ahead n (Replica.raiseLock p { n with qcHigh := qc }) := by
  obtain ⟨_, hcp, _, _⟩ := h.tree.child hc hp
  obtain ⟨lock, hlock, hr, hle, hmono⟩ := raiseLock_spec (n := { n with qcHigh := qc })
    h.tree h.lockIn hp
  rw [hr]
  exact ⟨{ h with
    highIn := Or.inr (GoMap.mem_iff_lookup.mpr ⟨c, hc⟩)
    lockIn := hlock
    lockHigh := by
      rw [hcp]; exact hle
    execHigh := by
      rw [hcp]; exact h.grandparent_le hp hex }, hmono, le_refl _⟩

theorem threeChain (h : KeptUp n) (hc : n.blocks.lookup qc.nodeID = some c)
    (hp : n.blocks.lookup c.parent = some p) (hg : n.blocks.lookup p.parent = some g)
    (hlt : n.heightOf n.bExec < g.height) :
    Ahead n ((Replica.raiseLock p { n with qcHigh := qc }).commitUpToLocked E g) := by
  obtain ⟨_, hcp, _, _⟩ := h.tree.child hc hp
  obtain ⟨_, hpg, hgid, _⟩ := h.tree.child hp hg
  obtain ⟨lock, hlock, hr, hle, hmono⟩ := raiseLock_spec (n := { n with qcHigh := qc })
    h.tree h.lockIn hp
  rw [h.tree.heightOf h.execIn, h.tree.height hg, ← hgid] at hlt
  have hne : g.id ≠ n.bExec := fun heq => by rw [heq] at hlt; omega
  obtain ⟨a, w, o, hcm, _⟩ := commitUpToLocked_eq (E := E)
    ({ n with qcHigh := qc, bLock := lock } : Replica) hne
  obtain ⟨w', o', hpr⟩ := persistRecordLocked_eq (.applied g.id) ({ n with
      qcHigh := qc, bLock := lock
      sets := ((Replica.span { n with qcHigh := qc, bLock := lock } g).foldl (activation E)
        (n.sets, n.epoch)).1
      epoch := ((Replica.span { n with qcHigh := qc, bLock := lock } g).foldl (activation E)
        (n.sets, n.epoch)).2
      bExec := g.id, applied := a, notify := w, out := o } : Replica)
  rw [hr, hcm, hpr]
  exact ⟨{
    tree := h.tree
    closed := fun id b hb => (h.closed id b hb).imp_right fun h => h.imp_right fun h => h.trans hlt
    highIn := Or.inr (GoMap.mem_iff_lookup.mpr ⟨c, hc⟩)
    lockIn := hlock
    execIn := hgid ▸ GoMap.mem_iff_lookup.mpr ⟨g, hg⟩
    lockHigh := by
      rw [hcp]; exact hle
    execHigh := by
      rw [hcp, hpg, hgid] }, hmono, le_of_lt hlt⟩

/-- **The chain rule absorbs the certificate it is run on**, or the process panics on a parent
that is gone. -/
theorem chainRule (h : KeptUp n) (hc : n.blocks.lookup qc.nodeID = some c) :
    (Replica.chainRule E c { n with qcHigh := qc }).panicked = true ∨
      Ahead n (Replica.chainRule E c { n with qcHigh := qc }) := by
  rcases chainRule_cases (E := E) { n with qcHigh := qc } c with
    ⟨_, hno, hm⟩ | ⟨_, _, hm⟩ | ⟨p, hp, hone, _⟩ | ⟨p, hp, _, hex, hm⟩ |
    ⟨p, g, hp, _, hg, _, hlt, hm⟩
  · rw [hm]
    exact Or.inr (h.rootChain hc hno)
  · rw [hm]
    exact Or.inl rfl
  · rw [(h.tree.child hc hp).2.2.2] at hone
    cases hone
  · rw [hm]
    exact Or.inr (h.twoChain hc hp hex)
  · rw [hm]
    exact Or.inr (h.threeChain hc hp hg hlt)

end Chain

theorem onNewQCLocked (h : KeptUp n) (hknown : qc.nodeID = noID ∨ qc.nodeID ∈ n.blocks) :
    (n.onNewQCLocked E qc).panicked = true ∨ Ahead n (n.onNewQCLocked E qc) := by
  rcases onNewQCLocked_cases (E := E) n qc with heq | ⟨_, _, hraise⟩
  · rw [heq]
    exact Or.inr h.ahead
  · obtain ⟨w, o, hpr⟩ := persistRecordLocked_eq (.qc qc) { n with qcHigh := qc }
    rcases hraise with ⟨hnone, heq⟩ | ⟨c, hc, heq⟩
    · -- a certificate of no block: its id is the empty one
      have hno : qc.nodeID = noID := hknown.resolve_right fun hin => by
        obtain ⟨b, hb⟩ := GoMap.mem_iff_lookup.mp hin
        exact absurd (hnone.symm.trans hb) (by simp)
      rw [heq, hpr]
      exact Or.inr ⟨{ h with
        highIn := Or.inl hno
        lockHigh := by
          rw [hno]; exact Nat.zero_le _
        execHigh := by
          rw [hno]; exact Nat.zero_le _ }, le_refl _, le_refl _⟩
    · have h₁ : KeptUp { n with writes := w, out := o } := h.congr rfl rfl rfl rfl
      rw [heq, hpr]
      exact (h₁.chainRule (E := E) hc).imp_right fun h => ⟨h.kept, h.lock, h.exec⟩

/-- **One move.**  `n₀` is the state in which the call started: what it may adopt was absorbed then,
and pointers only rise. -/
theorem move {S : Scope} (n₀ : Replica)
    (hS : ∀ qc ∈ S.adopts, qc.nodeID.parent.height ≤ n₀.bLock.height ∧
      qc.nodeID.parent.parent.height ≤ n₀.bExec.height)
    (hlink : S.linked) (h : n.panicked = true ∨ Ahead n₀ n) (hm : Move E S n n') :
    n'.panicked = true ∨ Ahead n₀ n' := by
  rcases h with hpan | ⟨h, hlock, hexec⟩
  · exact Or.inl (hm.onward.panicked hpan)
  cases hm with
  | aside ha =>
    refine Or.inr ⟨h.congr ha.blocks ha.qcHigh ha.bLock ha.bExec, ?_, ?_⟩
    · rw [ha.bLock]; exact hlock
    · rw [ha.bExec]; exact hexec
  | insert b _ hs _ _ hp =>
    obtain ⟨w, o, heq⟩ := record_eq b n
    rw [heq]
    exact Or.inr ⟨(h.insert hs (hp hlink)).congr rfl rfl rfl rfl, hlock, hexec⟩
  | own cmd _ hready _ =>
    obtain ⟨w, o, heq⟩ := record_eq (n.nextBlock cmd) n
    rw [heq]
    have hs : (n.nextBlock cmd).Sound := ⟨rfl, n.qcHigh, rfl, hready⟩
    have hp : (n.nextBlock cmd).parent = noID ∨ (n.nextBlock cmd).parent ∈ n.blocks := by
      change n.head = noID ∨ n.head ∈ n.blocks
      rw [← hready]
      exact h.highIn
    exact Or.inr ⟨(h.insert hs hp).congr rfl rfl rfl rfl, hlock, hexec⟩
  | fold qc _ hknown =>
    exact (h.onNewQCLocked (E := E) (hknown hlink)).imp_right fun h₁ =>
      ⟨h₁.kept, hlock.trans h₁.lock, hexec.trans h₁.exec⟩
  | adopt qc hmem hknown _ =>
    obtain ⟨hl, he⟩ := hS qc hmem
    exact Or.inr ⟨{ h with
      highIn := Or.inr hknown
      lockHigh := hl.trans hlock
      execHigh := he.trans hexec }, hlock, hexec⟩
  | vote b _ _ _ =>
    rcases castVote_eq (E := E) b n with heq | ⟨_, w, o, heq⟩
    · rw [heq]
      exact Or.inr ⟨h, hlock, hexec⟩
    · rw [heq]
      exact Or.inr ⟨h.congr rfl rfl rfl rfl, hlock, hexec⟩
  | collect vc _ => exact Or.inr ⟨h.congr rfl rfl rfl rfl, hlock, hexec⟩

theorem handle {C : Ctx} {inp : Input} (h : KeptUp n) (hP : ParkedSound n)
    (hS : ∀ qc ∈ n.adoptions E C inp, n.Absorbed qc) (hgap : n.GapFreeBatch E C inp) :
    (n.handle E C inp).panicked = true ∨
      (KeptUp (n.handle E C inp) ∧ ParkedSound (n.handle E C inp)) := by
  obtain ⟨hm, hP'⟩ := handle_moves (E := E) (C := C) hP inp
  have hahead := hm.invariant (P := fun m => m.panicked = true ∨ Ahead n m)
    (fun m m' hm hmove => move n (fun qc hqc => h.absorbed_iff.mp (hS qc hqc)) hgap hm hmove)
    (Or.inr h.ahead)
  exact hahead.imp_right fun h => ⟨h.kept, hP'⟩

theorem gc (h : KeptUp n) (hr : n.RetainsPointers) : KeptUp n.gcLocked.1 := by
  rcases gcLocked_cases n with heq | ⟨exec, base, cp, _, _, c⟩
  · rw [heq]
    exact h
  · have hkeep : ∀ id ∈ [n.bLock, n.qcHigh.nodeID], id ∈ n.blocks → id ∈ n.gcLocked.1.blocks := by
      intro id hid hin
      obtain ⟨b, hb⟩ := GoMap.mem_iff_lookup.mp hin
      exact GoMap.mem_iff_lookup.mpr ⟨b, c.lookup_of_retained h.tree hb
        (hr exec c.execAt base c.boundary id hid b hb)⟩
    have hexec : n.bExec.height = exec.height := (h.tree.height c.execAt).symm
    exact
      { tree := h.tree.sub fun _ _ hb => c.sub hb
        closed := by
          intro id b hb
          rw [c.bExec]
          rcases h.closed id b (c.sub hb) with hno | hin | hlow
          · exact Or.inl hno
          · by_cases hin' : b.parent ∈ n.gcLocked.1.blocks
            · exact Or.inr (Or.inl hin')
            · obtain ⟨p, hp⟩ := GoMap.mem_iff_lookup.mp hin
              refine Or.inr (Or.inr ?_)
              rw [hexec, ← h.tree.height hp]
              exact c.lower hp hin' h.tree
          · exact Or.inr (Or.inr hlow)
        highIn := by
          rw [c.qcHigh]
          exact h.highIn.imp_right (hkeep _ (by simp))
        lockIn := by
          rw [c.bLock]
          exact hkeep _ (by simp) h.lockIn
        execIn := by
          rw [c.bExec]
          by_contra hgone
          exact absurd (c.lower c.execAt hgone h.tree) (by omega)
        lockHigh := by rw [c.qcHigh, c.bLock]; exact h.lockHigh
        execHigh := by rw [c.qcHigh, c.bExec]; exact h.execHigh }

theorem newborn (h : Newborn n) : KeptUp n where
  tree := h.grown
  closed := by
    obtain ⟨g, hg, hb⟩ := h.tree
    intro id b hl
    rw [hb, GoMap.lookup_insert_of] at hl
    split at hl
    · obtain rfl := Option.some.inj hl
      exact Or.inl hg.parent_eq
    · exact absurd hl (by simp [AList.lookup_empty])
  highIn := Or.inr (h.qcHigh.1 ▸ h.genesis_mem)
  lockIn := h.bLock ▸ h.genesis_mem
  execIn := h.bExec ▸ h.genesis_mem
  lockHigh := by rw [h.qcHigh.1]; exact Nat.zero_le _
  execHigh := by rw [h.qcHigh.1]; exact Nat.zero_le _

end KeptUp

/-! ## 3. Every run -/

theorem ParkedSound.gc {n : Replica} (h : ParkedSound n) : ParkedSound n.gcLocked.1 := by
  rcases gcLocked_cases n with heq | ⟨exec, base, cp, _, _, c⟩
  · rw [heq]
    exact h
  · exact fun id l hl => h id l (c.parked id l hl)

/-- **Lock and commit keep up with `qcHigh`** in every run of live events -- calls with any
message, and collections -- that meet the condition. -/
theorem lock_keeps_up {E : Env} {K : Setup} {n₀ : Replica} {s : Host} (h₀ : K.fresh E = .ok n₀)
    (hrun : (Host.absorbingMachine E K).Steps (Host.start K n₀) s) (halive : s.node.panicked = false) :
    s.node.KeepsUp := by
  have hinv : s.node.panicked = true ∨ (KeptUp s.node ∧ ParkedSound s.node) := by
    refine hrun.invariant (P := fun s => s.node.panicked = true ∨
      (KeptUp s.node ∧ ParkedSound s.node)) ?_ ?_
    · rintro s e hs ⟨hen, hlive, hok⟩
      cases e with
      | call inp ctx writes =>
        obtain ⟨h, hP⟩ := hs.resolve_left (by rw [show s.node.panicked = false from hen]; simp)
        have hready : KeptUp (s.ready writes) := h.congr rfl rfl rfl rfl
        exact hready.handle (hP.congr rfl) hok.1 hok.2
      | gc =>
        obtain ⟨h, hP⟩ := hs.resolve_left (by rw [show s.node.panicked = false from hen]; simp)
        exact Or.inr ⟨h.gc hok, hP.gc⟩
      | writeCheckpoint => exact absurd hlive (by simp [Event.live])
      | rotate => exact absurd hlive (by simp [Event.live])
      | restart => exact absurd hlive (by simp [Event.live])
    · have hn := Newborn.fresh h₀
      exact Or.inr ⟨(KeptUp.newborn hn).congr rfl rfl rfl rfl, hn.parkedSound.congr rfl⟩
  exact (hinv.resolve_left (by simp [halive])).1.keepsUp

instance (n : Replica) : Decidable n.RetainsPointers :=
  inferInstanceAs (Decidable (∀ _ ∈ _, ∀ _ ∈ _, ∀ _ ∈ _, ∀ _ ∈ _, _))

instance (E : Env) (s : Host) (e : Event) : Decidable (s.Absorbing E e) :=
  match e with
  | .call inp ctx writes => inferInstanceAs (Decidable
      ((∀ qc ∈ (s.ready writes).adoptions E ctx inp, s.node.Absorbed qc) ∧
        (s.ready writes).GapFreeBatch E ctx inp))
  | .gc => inferInstanceAs (Decidable s.node.RetainsPointers)
  | .writeCheckpoint | .rotate | .restart => inferInstanceAs (Decidable True)

instance (E : Env) (K : Setup) (s : Host) (e : Event) :
    Decidable ((Host.absorbingMachine E K).enabled s e) :=
  inferInstanceAs (Decidable (s.Enabled e ∧ e.live = true ∧ s.Absorbing E e))

/-! ## 4. Following a leader, and taking over from it -/

theorem lock_keeps_up_following :
    (((Host.absorbingMachine plainEnv (Script.setup "L1" 1)).play
        (Script.boot plainEnv (Script.setup "L1" 1)) Following.normal).node.bLock = Following.b1) ∧
      ((Host.absorbingMachine plainEnv (Script.setup "L1" 1)).play
        (Script.boot plainEnv (Script.setup "L1" 1)) Following.normal).node.KeepsUp :=
  ⟨by decide +kernel, lock_keeps_up
    (show _ = Except.ok (Script.opened plainEnv (Script.setup "L1" 1)) from rfl)
    (Machine.steps_of_plays _ _ (by decide +kernel)) (by decide +kernel)⟩

/-- **A new leader's lock stays behind.**  The certificate of `b2` is adopted, `b1` is not
locked. -/
theorem lock_keeps_up_fails :
    (Host.machine plainEnv (Script.setup "L1" 1)).Steps
        (Script.boot plainEnv (Script.setup "L1" 1)) Following.after ∧
      Following.after.node.panicked = false ∧
      Following.after.node.qcHigh = Following.qc2 ∧ Following.after.node.bLock = genesisID ∧
      ¬ Following.after.node.KeepsUp := by
  refine ⟨Machine.steps_of_plays _ _ (by decide +kernel), by decide +kernel, by decide +kernel,
    by decide +kernel, fun h => ?_⟩
  have := (h (Script.blockOf Following.b2 Following.qc1 0)
    (Script.blockOf Following.b1 Script.root 0) (by decide +kernel) (by decide +kernel)
    (by decide)).1
  exact absurd this (by decide +kernel)

end Cachey.HotStuff
