/-
# The building blocks of the handlers keep the invariant

For each function the handlers are made of: the invariant of `Cachey.HotStuff.Invariant` is kept
and the replica only moves forward (`Grows`).  The history `H` is fixed throughout -- none of
these functions signs a vote -- and is assumed sound, which is what makes a commit land above
the executed prefix.
-/
import Cachey.HotStuff.Invariant
import Cachey.HotStuff.Rules

namespace Cachey.HotStuff

open VoteChain (Extends)

/-! ## 1. Moving forward -/

/-- Nothing is taken back: blocks stay, heights of `qcHigh`, `bLock` and `bExec` do not drop. -/
structure Forward (n n' : Replica) : Prop where
  id : n'.id = n.id
  blocks : ∀ x ∈ n.blocks, x ∈ n'.blocks
  qcHigh : n.qcHigh.height ≤ n'.qcHigh.height
  bLock : n.bLock.height ≤ n'.bLock.height
  bExec : n.bExec.height ≤ n'.bExec.height
  vHeight : n'.vHeight = n.vHeight
  signed : votesOf n.out ⊆ votesOf n'.out

theorem Forward.refl (n : Replica) : Forward n n :=
  ⟨rfl, fun _ h => h, le_refl _, le_refl _, le_refl _, rfl, fun _ h => h⟩

variable {a b c : Replica}

theorem Forward.trans (h₁ : Forward a b) (h₂ : Forward b c) : Forward a c :=
  ⟨h₂.id.trans h₁.id, fun x hx => h₂.blocks x (h₁.blocks x hx), h₁.qcHigh.trans h₂.qcHigh,
    h₁.bLock.trans h₂.bLock, h₁.bExec.trans h₂.bExec, h₂.vHeight.trans h₁.vHeight,
    fun _ hx => h₂.signed (h₁.signed hx)⟩

/-- A move forward that leaves the parked blocks alone. -/
structure Grows (n n' : Replica) : Prop extends Forward n n' where
  parked : n'.pendingBlocks = n.pendingBlocks

theorem Grows.refl (n : Replica) : Grows n n := ⟨Forward.refl n, rfl⟩

theorem Grows.trans (h₁ : Grows a b) (h₂ : Grows b c) : Grows a c :=
  ⟨h₁.toForward.trans h₂.toForward, h₂.parked.trans h₁.parked⟩

theorem Quiet.grows {n n' : Replica} (q : Quiet n n') : Grows n n' :=
  ⟨⟨q.id, fun x hx => by rw [q.blocks]; exact hx, by rw [q.qcHigh], by rw [q.bLock],
    by rw [q.bExec], q.vHeight, by rw [q.signed]; exact fun _ h => h⟩, q.pendingBlocks⟩

section

variable {E : Env} {K : Cluster} {H : History} {X roots : List BlockID} {r : String}
  {n n' n₀ : Replica} {b cur p c : Block} {qc : QC} {m : GoMap BlockID (List Block)}
  {P : Block → Prop}

/-! ## 2. Executing a span -/

theorem votes_execs_of_isKey {out out' : List Effect} {span : List Block}
    (h : out'.filter Effect.isKey =
      (span.map fun b => Effect.exec b.id).reverse ++ out.filter Effect.isKey) :
    votesOf out' = votesOf out ∧ execsOf out' = (span.map (·.id)).reverse ++ execsOf out := by
  have hv : ∀ e : Effect, e.isKey = false → e.vote = none := by
    intro e he
    cases e with
    | signed m => cases m <;> first | rfl | exact absurd he (by simp [Effect.isKey])
    | _ => rfl
  have hx : ∀ e : Effect, e.isKey = false → e.executed = none := by
    intro e he
    cases e with
    | exec _ => exact absurd he (by simp [Effect.isKey])
    | _ => rfl
  unfold votesOf execsOf
  rw [filterMap_isKey hv h, filterMap_isKey hx h, List.filterMap_reverse, List.filterMap_reverse,
    List.filterMap_map, List.filterMap_map]
  simp [Function.comp_def, Effect.vote, Effect.executed]

theorem foldl_activation_plain {s : GoMap Nat ValidatorSet × Nat} : ∀ {l : List Block},
    (∀ b ∈ l, isMembershipBlock E b = false) → l.foldl (activation E) s = s
  | [], _ => rfl
  | b :: l, h => by
    have hb : activation E s b = s := by simp [activation, h b List.mem_cons_self]
    rw [List.foldl_cons, hb]
    exact foldl_activation_plain fun x hx => h x (List.mem_cons_of_mem _ hx)

/-- **A commit above the executed prefix** executes exactly the chain between the two. -/
theorem ReplicaInv.commitUpToLocked (h : ReplicaInv E K H X r n) {gp : Block}
    (hgp : n.blocks.lookup gp.id = some gp) (hx : Extends BlockID.parent gp.id n.bExec)
    (hc : K.world.Committed H gp.id) (hlt : n.bExec.height < gp.id.height) :
    ReplicaInv E K H X r (n.commitUpToLocked E gp) ∧ Grows n (n.commitUpToLocked E gp) ∧
      (n.commitUpToLocked E gp).bLock = n.bLock := by
  have hplaced : Placed K H E n.blocks gp := (h.tree.node _ gp hgp).2
  obtain ⟨hids, hin⟩ := h.tree.path_ids hplaced
  have hplain : ∀ b ∈ n.span gp, isMembershipBlock E b = false := by
    intro b hb
    have hl : Placed K H E n.blocks b := by
      rcases hin b ((List.takeWhile_sublist _).subset (List.mem_reverse.mp hb)) with rfl | hl
      · exact hplaced
      · exact (h.tree.node _ b hl).2
    rcases hl with hg | hf
    · simp [isMembershipBlock, isMembershipCmd, hg.cmd_eq]
    · exact hf.1.plain
  have hspan : ((n.span gp).map (·.id)).reverse =
      gp.id.ancestors.takeWhile fun x => x ≠ n.bExec := by
    unfold Replica.span
    rw [List.map_reverse, List.reverse_reverse, ← hids, List.takeWhile_map]
    rfl
  have hne : gp.id ≠ n.bExec := by
    intro hid
    rw [hid] at hlt
    exact lt_irrefl _ hlt
  obtain ⟨a, w, o, heq, hkey⟩ := commitUpToLocked_eq (E := E) n hne
  obtain ⟨hvotes, hexecs⟩ := votes_execs_of_isKey hkey
  rw [foldl_activation_plain hplain] at heq
  have q := Quiet.persistRecordLocked (.applied gp.id)
    { n with bExec := gp.id, applied := a, notify := w, out := o }
  rw [heq]
  refine ⟨ReplicaInv.quiet ?_ q, Grows.trans ?_ q.grows, q.bLock⟩
  · exact { h with
      execIn := GoMap.mem_iff_lookup.mpr ⟨gp, hgp⟩
      execCommitted := hc
      signed := by rw [hvotes]; exact h.signed
      ledger := by
        rw [hexecs, hspan, List.append_assoc, h.ledger]
        exact (BlockID.line_eq_takeWhile (BlockID.mem_ancestors_iff.mpr hx)).symm }
  · exact ⟨⟨rfl, fun _ hx => hx, le_refl _, le_refl _, le_of_lt hlt, rfl,
      fun _ hm => by rw [hvotes]; exact hm⟩, rfl⟩

/-! ## 3. The chain rule -/

theorem ReplicaInv.raiseLock (h : ReplicaInv E K H X r n) (hp : n.blocks.lookup p.id = some p)
    (hle : p.id.height ≤ n.qcHigh.height) :
    ReplicaInv E K H X r (n.raiseLock p) ∧ Grows n (n.raiseLock p) ∧
      p.id.height ≤ (n.raiseLock p).bLock.height := by
  have hin : p.id ∈ n.blocks := GoMap.mem_iff_lookup.mpr ⟨p, hp⟩
  have hph : p.height = p.id.height := by
    have := h.tree.heightOf hin
    simpa [Replica.heightOf, hp] using this
  have hlh := h.tree.heightOf h.lockIn
  unfold Replica.raiseLock
  rw [hph, hlh]
  split
  next hgt =>
    have hlt : n.bLock.height ≤ p.id.height := by omega
    exact ⟨{ h with
        lockIn := hin
        lockLe := hle
        mine := fun e he hv => ⟨(h.mine e he hv).1, (h.mine e he hv).2.trans hlt⟩ },
      ⟨⟨rfl, fun _ hx => hx, le_refl _, hlt, le_refl _, rfl, fun _ h => h⟩, rfl⟩, le_refl _⟩
  next hngt => exact ⟨h, Grows.refl n, by omega⟩

theorem Rooted.height {blocks : GoMap BlockID Block} (h : Rooted K H E blocks)
    (hb : blocks.lookup b.id = some b) : b.height = b.id.height := by
  rcases (h.node _ b hb).2 with hg | hf
  · rw [hg.id_eq, hg.height_eq]
    rfl
  · exact hf.1.id_height.symm

theorem Rooted.child {blocks : GoMap BlockID Block} (h : Rooted K H E blocks)
    (hc : blocks.lookup c.id = some c) (hp : blocks.lookup c.parent = some p) :
    Fit K H E c ∧ blocks.lookup p.id = some p ∧ c.id.parent = p.id ∧ oneChainedBy p c = true := by
  have hno : c.parent ≠ noID := fun hno =>
    h.noID_notMem (hno ▸ GoMap.mem_iff_lookup.mpr ⟨p, hp⟩)
  have hf : Fit K H E c := by
    rcases (h.node _ c hc).2 with hg | hf
    · exact absurd hg.parent_eq hno
    · exact hf.1
  have hpid := (h.node _ p hp).1
  obtain ⟨qc, hq, hn, _⟩ := hf.justified
  exact ⟨hf, by rw [hpid]; exact hp, by rw [hf.id_parent, hpid],
    by simp [oneChainedBy, hno, hpid, hq, hn]⟩

/-- **The chain rule.**  The certified block `c` locks its parent and, where its commit chain is
gap-free, commits its grandparent. -/
theorem ReplicaInv.chainRule (hH : K.world.History H) (h : ReplicaInv E K H X r n)
    (hc : n.blocks.lookup c.id = some c) (hcert : K.world.Certified H c.id)
    (hle : c.id.height ≤ n.qcHigh.height)
    (hgap : n.bExec.height < c.id.parent.parent.height → GapFree H c.id) :
    ReplicaInv E K H X r (n.chainRule E c) ∧ Grows n (n.chainRule E c) ∧
      (c.id ≠ genesisID → c.id.parent.height ≤ (n.chainRule E c).bLock.height) := by
  -- the parent is locked
  have hlock : ∀ {p}, n.blocks.lookup c.parent = some p → ReplicaInv E K H X r (n.raiseLock p) ∧
      Grows n (n.raiseLock p) ∧ c.id.parent.height ≤ (n.raiseLock p).bLock.height := by
    intro p hp
    obtain ⟨hf, hlp, hcp, -⟩ := h.tree.child hc hp
    have hlow : p.id.height < c.id.height := by
      rw [hf.id_height, ← hcp, hf.id_parent]
      exact hf.ascends
    rw [hcp]
    exact h.raiseLock hlp (by omega)
  rcases chainRule_cases (E := E) n c with ⟨hno, -, heq⟩ | ⟨hno, hne, -⟩ | ⟨p, hp, hone, -⟩ |
    ⟨p, hp, -, -, heq⟩ | ⟨p, gp, hp, -, hg, -, hhigh, heq⟩
  · rw [heq]
    refine ⟨h, Grows.refl n, fun hne => ?_⟩
    rcases (h.tree.node _ c hc).2 with hg | hf
    · exact absurd hg.id_eq hne
    · exact absurd hno (by obtain ⟨p, hp⟩ := GoMap.mem_iff_lookup.mp hf.2; simp [hp])
  · rcases (h.tree.node _ c hc).2 with hg | hf
    · exact absurd hg.parent_eq hne
    · exact absurd hno (by obtain ⟨p, hp⟩ := GoMap.mem_iff_lookup.mp hf.2; simp [hp])
  · exact absurd ((h.tree.child hc hp).2.2.2.symm.trans hone) (by simp)
  · rw [heq]
    obtain ⟨h₁, g₁, l₁⟩ := hlock hp
    exact ⟨h₁, g₁, fun _ => l₁⟩
  · rw [heq]
    obtain ⟨h₁, g₁, l₁⟩ := hlock hp
    obtain ⟨hf, hlp, hcp, -⟩ := h.tree.child hc hp
    obtain ⟨hfp, hlg, hpg, -⟩ := h.tree.child hlp hg
    have hlt : n.bExec.height < gp.id.height := by
      rwa [h.tree.heightOf h.execIn, h.tree.height hlg] at hhigh
    have hchain : K.world.CommitChain H gp.id p.id c.id :=
      { link₁ := hcp
        link₂ := hpg
        notRoot₁ := hf.ne_genesis
        notRoot₂ := hfp.ne_genesis
        moment := ⟨H, List.suffix_refl _, hcert, fun e he hh => by
          have := hgap (by rw [hcp, hpg]; exact hlt) e he
          rw [hcp, hpg] at this
          exact this hh⟩ }
    have hcommitted : K.world.Committed H gp.id := Or.inr ⟨p.id, c.id, hchain⟩
    have hext := h.execCommitted.extends_of_certified K.faultBound hH
      (hcommitted.certified K.faultBound hH) (le_of_lt hlt)
    obtain ⟨hblocks, hexec⟩ : (n.raiseLock p).blocks = n.blocks ∧
        (n.raiseLock p).bExec = n.bExec := by
      unfold Replica.raiseLock
      split <;> exact ⟨rfl, rfl⟩
    obtain ⟨h₂, g₂, l₂⟩ := h₁.commitUpToLocked (hblocks ▸ hlg) (hexec ▸ hext) hcommitted
      (hexec ▸ hlt)
    exact ⟨h₂, g₁.trans g₂, fun _ => by rw [l₂]; exact l₁⟩

/-! ## 4. Folding and adopting certificates -/

theorem ReplicaInv.certifies (h : ReplicaInv E K H X r n) (hb : Believable K H E qc)
    (hv : n.qcValid E qc = true) : Certifies K H qc := by
  unfold Replica.qcValid at hv
  split at hv
  next hg =>
    simp only [Bool.and_eq_true, decide_eq_true_eq] at hv
    exact ⟨by rw [hg, hv.1]; rfl, Or.inl hg⟩
  next hg =>
    split at hv
    · cases hv
    next S hS =>
      split at hv
      · cases hv
      next hlen =>
        split at hv
        · cases hv
        · have good := (h.sets _ S hS).2
          refine hb S good (by rw [← good.quorum]; omega) ?_
          intro voter sig hl
          have := List.all_eq_true.mp hv ⟨voter, sig⟩ (AList.mem_lookup_iff.mp hl)
          simpa using this

/-- What is known of a replica after it was offered the certificate `qc`: the lock has followed
a raise, and `qcHigh` is at least as high. -/
structure Folded (n n' : Replica) (qc : QC) : Prop where
  high : qc.height ≤ n'.qcHigh.height
  lock : n.qcHigh.height < qc.height → qc.nodeID.parent.height ≤ n'.bLock.height

theorem ReplicaInv.onNewQCLocked (hH : K.world.History H) (h : ReplicaInv E K H X r n)
    (hcert : n.qcValid E qc = true → Certifies K H qc) (hknown : qc.nodeID ∈ n.blocks)
    (hgap : n.qcHigh.height < qc.height → n.bExec.height < qc.nodeID.parent.parent.height →
      GapFree H qc.nodeID) :
    ReplicaInv E K H X r (n.onNewQCLocked E qc) ∧ Grows n (n.onNewQCLocked E qc) ∧
      (n.qcValid E qc = true → Folded n (n.onNewQCLocked E qc) qc) := by
  unfold Replica.onNewQCLocked
  split
  next hinv => exact ⟨h, Grows.refl n, fun hv => absurd hv hinv⟩
  next hval =>
    have hv : n.qcValid E qc = true := by simpa using hval
    have hq := hcert hv
    split
    next hstale =>
      exact ⟨h, Grows.refl n, fun _ => ⟨hstale, fun hlt => absurd hstale (by omega)⟩⟩
    next hnew =>
      have hlt : n.qcHigh.height < qc.height := by omega
      have h₀ : ReplicaInv E K H X r { n with qcHigh := qc } :=
        { h with high := hq, highIn := hknown, lockLe := h.lockLe.trans (le_of_lt hlt) }
      have q₁ := Quiet.persistRecordLocked (.qc qc) { n with qcHigh := qc }
      have g₀ : Grows n { n with qcHigh := qc } :=
        ⟨⟨rfl, fun _ hx => hx, le_of_lt hlt, le_refl _, le_refl _, rfl, fun _ h => h⟩, rfl⟩
      have h₁ := h₀.quiet q₁
      obtain ⟨c, hc⟩ := GoMap.mem_iff_lookup.mp hknown
      have hcid := (h.tree.node _ c hc).1
      generalize ({ n with qcHigh := qc } : Replica).persistRecordLocked (.qc qc) = m at q₁ h₁
      have hcm : m.blocks.lookup qc.nodeID = some c := by rw [q₁.blocks]; exact hc
      have hqm : m.qcHigh = qc := q₁.qcHigh
      simp only [hcm]
      have hcm' : m.blocks.lookup c.id = some c := by rw [hcid]; exact hcm
      obtain ⟨h₂, g₂, l₂⟩ := h₁.chainRule hH hcm' (by rw [hcid]; exact hq.2)
        (by rw [hcid, hqm, hq.1]) (by
          rw [hcid, q₁.bExec]
          exact hgap hlt)
      refine ⟨h₂, (g₀.trans q₁.grows).trans g₂, fun _ => ⟨?_, fun _ => ?_⟩⟩
      · have := g₂.qcHigh
        rw [hqm] at this
        exact this
      · rw [hcid] at l₂
        refine l₂ fun hgen => ?_
        rw [hq.1, hgen] at hlt
        exact absurd hlt (by simp [genesisID, BlockID.height])

/-- Adopting a certificate moves `qcHigh` and nothing else: `onNewQCLocked` finds it already
there. -/
theorem ReplicaInv.adoptQC (h : ReplicaInv E K H X r n) {high : QC} (hq : Certifies K H high)
    (hknown : high.nodeID ∈ n.blocks) (hlt : n.qcHigh.height < high.height) :
    ReplicaInv E K H X r (n.adoptQC E high) ∧ Grows n (n.adoptQC E high) := by
  rw [adoptQC_eq]
  exact ⟨{ h with high := hq, highIn := hknown, lockLe := h.lockLe.trans (le_of_lt hlt) },
    ⟨⟨rfl, fun _ hx => hx, le_of_lt hlt, le_refl _, le_refl _, rfl, fun _ h => h⟩, rfl⟩⟩

theorem ReplicaInv.activateWithBaseLocked (h : ReplicaInv E K H X r n) (base : QC) :
    ReplicaInv E K H X r (n.activateWithBaseLocked base) ∧
      Grows n (n.activateWithBaseLocked base) :=
  ⟨{ h with want := fun qc hqc => absurd hqc (by simp [Replica.activateWithBaseLocked]) },
    ⟨⟨rfl, fun _ hx => hx, le_refl _, le_refl _, le_refl _, rfl, fun _ h => h⟩, rfl⟩⟩

theorem ReplicaInv.completeBaseLocked (h : ReplicaInv E K H X r n) {id : BlockID}
    (hid : id ∈ n.blocks) :
    ReplicaInv E K H X r (n.completeBaseLocked E id) ∧ Grows n (n.completeBaseLocked E id) := by
  refine completeBaseLocked_keeps (P := fun m => ReplicaInv E K H X r m ∧ Grows n m)
    ⟨h, Grows.refl n⟩ (h.activateWithBaseLocked n.qcHigh) fun high hw heq hgt => ?_
  obtain ⟨h₁, g₁⟩ := h.adoptQC (h.want high hw) (heq ▸ hid) hgt
  rw [adoptQC_eq] at h₁ g₁
  obtain ⟨h₂, g₂⟩ := h₁.activateWithBaseLocked high
  exact ⟨h₂, g₁.trans g₂⟩

/-! ## 5. Inserting blocks -/

/-- Folding a certificate of `c` is safe: if it raises `qcHigh` and reaches above the executed
prefix, the commit chain of `c` is gap-free. -/
def FoldSafe (K : Cluster) (H : History) (n : Replica) (c : BlockID) : Prop :=
  K.world.Certified H c → n.qcHigh.height < c.height →
    n.bExec.height < c.parent.parent.height → GapFree H c

theorem FoldSafe.forward {c : BlockID} (h : FoldSafe K H n c) (g : Forward n n') :
    FoldSafe K H n' c :=
  fun hc h₁ h₂ => h hc (g.qcHigh.trans_lt h₁) (g.bExec.trans_lt h₂)

theorem Folded.forward {m : Replica} (h : Folded n n' qc) (g : Forward n' m) : Folded n m qc :=
  ⟨h.high.trans g.qcHigh, fun hlt => (h.lock hlt).trans g.bLock⟩

theorem qcValid_congr (hs : n'.sets = n.sets)
    (hb : n'.blocks.lookup qc.nodeID = n.blocks.lookup qc.nodeID) :
    n'.qcValid E qc = n.qcValid E qc := by
  simp [Replica.qcValid, Replica.contradicts, hs, hb]

theorem Fit.parent_ne (h : Fit K H E b) : b.parent ≠ b.id := by
  intro heq
  have := h.ascends
  rw [heq, h.id_height] at this
  omega

theorem ReplicaInv.enter (h : ReplicaInv E K H X r n) (hf : Fit K H E cur)
    (hp : cur.parent ∈ n.blocks) :
    ReplicaInv E K H X r
        { n with blocks := n.blocks.insert cur.id cur, fetches := n.fetches.erase cur.id } ∧
      Grows n { n with blocks := n.blocks.insert cur.id cur, fetches := n.fetches.erase cur.id } :=
  have grow : ∀ {x : BlockID}, x ∈ n.blocks → x ∈ n.blocks.insert cur.id cur :=
    fun hx => (AList.mem_insert _).mpr (Or.inr hx)
  ⟨{ h with
      tree := h.tree.insert hf hp
      highIn := grow h.highIn
      lockIn := grow h.lockIn
      execIn := grow h.execIn
      votesIn := fun id hid => grow (h.votesIn id hid)
      mine := fun e he hv => ⟨grow (h.mine e he hv).1, (h.mine e he hv).2⟩ },
    ⟨⟨rfl, fun _ hx => grow hx, le_refl _, le_refl _, le_refl _, rfl, fun _ h => h⟩, rfl⟩⟩

theorem ReplicaInv.insertBlock (hH : K.world.History H) (h : ReplicaInv E K H X r n)
    (hf : Fit K H E cur) (hp : cur.parent ∈ n.blocks) (hsafe : FoldSafe K H n cur.parent) :
    ReplicaInv E K H X r (n.insertBlock E cur) ∧ Grows n (n.insertBlock E cur) ∧
      cur.id ∈ (n.insertBlock E cur).blocks ∧
      ∀ qc, cur.justify = some qc → n.qcValid E qc = true → Folded n (n.insertBlock E cur) qc := by
  obtain ⟨qc, hj, hn, hq⟩ := hf.justified
  obtain ⟨h₁, g₁⟩ := h.enter hf hp
  unfold Replica.insertBlock
  dsimp only
  rw [hj]
  have hin₁ : cur.id ∈ n.blocks.insert cur.id cur := (AList.mem_insert _).mpr (Or.inl rfl)
  have hsame : (n.blocks.insert cur.id cur).lookup qc.nodeID = n.blocks.lookup qc.nodeID :=
    AList.lookup_insert_ne (by rw [hn]; exact hf.parent_ne)
  generalize hm₁ : ({ n with blocks := n.blocks.insert cur.id cur,
                             fetches := n.fetches.erase cur.id } : Replica) = m₁ at h₁ g₁
  have hblocks₁ : m₁.blocks = n.blocks.insert cur.id cur := by rw [← hm₁]
  have hsets₁ : m₁.sets = n.sets := by rw [← hm₁]
  -- recording the block and raising the head are quiet
  have q₂ := Quiet.persistRecordLocked (.block cur) m₁
  have q₃ : ∀ m : Replica, Quiet m
      (if cur.height > m.heightOf m.head then { m with head := cur.id } else m) := by
    intro m
    split
    · exact ⟨rfl, rfl, rfl, rfl, rfl, rfl, rfl, rfl, rfl, rfl, rfl, rfl, rfl, rfl⟩
    · exact Quiet.refl m
  have q := q₂.trans (q₃ _)
  generalize (if cur.height >
      (m₁.persistRecordLocked (.block cur)).heightOf (m₁.persistRecordLocked (.block cur)).head
    then { m₁.persistRecordLocked (.block cur) with head := cur.id }
    else m₁.persistRecordLocked (.block cur)) = m₃ at q
  have h₃ := h₁.quiet q
  have g₃ := g₁.trans q.grows
  have hvalid : m₃.qcValid E qc = n.qcValid E qc :=
    qcValid_congr (by rw [q.sets, hsets₁]) (by rw [q.blocks, hblocks₁, hsame])
  have hknown : qc.nodeID ∈ m₃.blocks := g₃.blocks _ (hn ▸ hp)
  obtain ⟨h₄, g₄, f₄⟩ := h₃.onNewQCLocked hH (fun _ => hq) hknown
    (by
      rw [hn]
      exact fun hlt => hsafe.forward g₃.toForward hf.parent_certified
        (by rw [← hn, ← hq.1]; exact hlt))
  have hin₄ : cur.id ∈ (m₃.onNewQCLocked E qc).blocks :=
    g₄.blocks _ (by rw [q.blocks, hblocks₁]; exact hin₁)
  obtain ⟨h₅, g₅⟩ := h₄.completeBaseLocked hin₄
  refine ⟨h₅, (g₃.trans g₄).trans g₅, g₅.blocks _ hin₄, ?_⟩
  intro qc' hqc' hv
  obtain rfl := Option.some.inj hqc'
  have f := (f₄ (hvalid.trans hv)).forward g₅.toForward
  exact ⟨f.high, fun hlt => f.lock (by rw [q.qcHigh, ← hm₁]; exact hlt)⟩

/-- A parked block may be released: if it hangs below one of `roots`, its certificate may be
folded into the state `n₀`. -/
def Releasable (K : Cluster) (H : History) (n₀ : Replica) (roots : List BlockID) (b : Block) : Prop :=
  (∃ x ∈ roots, x ∈ b.parent.ancestors) → FoldSafe K H n₀ b.parent

theorem ReplicaInv.addBlockTurn (hH : K.world.History H) (h : ReplicaInv E K H X r n)
    (hf : Fit K H E cur) (hp : cur.parent ∈ n.blocks) (hsafe : FoldSafe K H n cur.parent)
    (hP : Parked (fun _ => P) n) :
    ReplicaInv E K H X r (n.addBlockTurn E cur).1 ∧ Forward n (n.addBlockTurn E cur).1 ∧
      Parked (fun _ => P) (n.addBlockTurn E cur).1 ∧
      (∀ b ∈ (n.addBlockTurn E cur).2.2,
        (b.parent = cur.id ∧ Fit K H E b) ∧ b.parent ∈ (n.addBlockTurn E cur).1.blocks ∧ P b) ∧
      (n.epochGate E cur = true → cur.id ∉ n.blocks →
        cur.id ∈ (n.addBlockTurn E cur).1.blocks ∧ ∀ qc, cur.justify = some qc →
          n.qcValid E qc = true → Folded n (n.addBlockTurn E cur).1 qc) := by
  obtain ⟨h₁, g₁, hin₁, f₁⟩ := h.insertBlock hH hf hp hsafe
  rcases addBlockTurn_cases (E := E) (Q := fun id b => (b.parent = id ∧ Fit K H E b) ∧ P b)
    (fun _ _ hb => ⟨⟨rfl, hb.1.2⟩, hb.2⟩) cur n (fun _ _ id l hl b hb =>
      ⟨h₁.parked id l hl b hb, hP id l (g₁.parked ▸ hl) b hb⟩) with
    ⟨heq, hout⟩ | ⟨_, _, pb, heq, hpark, hwork⟩
  · rw [heq]
    exact ⟨h, Forward.refl n, hP, by simp, fun hgate hnot => absurd hgate (hout.resolve_left hnot)⟩
  · rw [heq]
    generalize n.insertBlock E cur = m at *
    have g : Forward m { m with pending := m.pending.erase cur.id, pendingBlocks := pb } :=
      ⟨rfl, fun _ hx => hx, le_refl _, le_refl _, le_refl _, rfl, fun _ h => h⟩
    refine ⟨{ h₁ with parked := fun id l hl b hb => (hpark id l hl b hb).1 },
      g₁.toForward.trans g, fun id l hl b hb => (hpark id l hl b hb).2, fun b hb => ?_,
      fun _ _ => ⟨hin₁, fun qc hj hv => (f₁ qc hj hv).forward g⟩⟩
    obtain ⟨hq, hin⟩ := hwork b hb
    exact ⟨hq.1, hin, hq.2⟩

theorem Releasable.released (h : Releasable K H n₀ roots b) (hf : Fit K H E b)
    (hb : b.parent = cur.id) (hc : ∃ x ∈ roots, x ∈ cur.id.ancestors) :
    (∃ x ∈ roots, x ∈ b.id.ancestors) ∧ FoldSafe K H n₀ b.parent := by
  refine ⟨?_, h (hb ▸ hc)⟩
  obtain ⟨x, hx, hxc⟩ := hc
  refine ⟨x, hx, ?_⟩
  rw [hf.addressed, hb]
  exact List.mem_cons_of_mem _ hxc

theorem BlockID.self_mem_ancestors : ∀ (b : BlockID), b ∈ b.ancestors
  | .raw _ => List.mem_singleton.mpr rfl
  | .digest _ _ _ _ => List.mem_cons_self

/-- **Inserting a block**, with everything it unblocks.  The blocks on the stack hang below `roots`,
and their certificates may be folded, measured at the state `n₀`. -/
theorem ReplicaInv.addBlockLocked (hH : K.world.History H) (h : ReplicaInv E K H X r n)
    (g : Forward n₀ n) (hr : b.id ∈ roots) (hf : Fit K H E b) (hp : b.parent ∈ n.blocks)
    (hs : FoldSafe K H n₀ b.parent) (hP : Parked (fun _ => Releasable K H n₀ roots) n) :
    ReplicaInv E K H X r (n.addBlockLocked E b).1 ∧ Forward n (n.addBlockLocked E b).1 ∧
      Parked (fun _ => Releasable K H n₀ roots) (n.addBlockLocked E b).1 ∧
      (n.epochGate E b = true → b.id ∉ n.blocks →
        b.id ∈ (n.addBlockLocked E b).1.blocks ∧ ∀ qc, b.justify = some qc →
          n.qcValid E qc = true → Folded n (n.addBlockLocked E b).1 qc) := by
  obtain ⟨h₁, g₁, p₁, w₁, f₁⟩ := h.addBlockTurn hH hf hp (hs.forward g) hP
  obtain ⟨h₂, g₂, p₂⟩ := addBlockLocked_run (E := E)
    (I := fun m => ReplicaInv E K H X r m ∧ Forward (n.addBlockTurn E b).1 m ∧
      Parked (fun _ => Releasable K H n₀ roots) m)
    (L := fun m x => Fit K H E x ∧ x.parent ∈ m.blocks ∧ (∃ y ∈ roots, y ∈ x.id.ancestors) ∧
      FoldSafe K H n₀ x.parent)
    (fun m cur hm hc => by
      obtain ⟨hm, gm, pm⟩ := hm
      obtain ⟨hf, hp, hr, hs⟩ := hc
      obtain ⟨h₂, g₂, p₂, w₂, _⟩ := hm.addBlockTurn hH hf hp (hs.forward ((g.trans g₁).trans gm)) pm
      refine ⟨⟨h₂, gm.trans g₂, p₂⟩, fun x hx => ?_, fun x hx => ⟨hx.1, g₂.blocks _ hx.2.1, hx.2.2⟩⟩
      obtain ⟨⟨hxp, hxf⟩, hxin, hxr⟩ := w₂ x hx
      exact ⟨hxf, hxin, hxr.released hxf hxp hr⟩) ⟨h₁, Forward.refl _, p₁⟩ (fun x hx => by
      obtain ⟨⟨hxp, hxf⟩, hxin, hxr⟩ := w₁ x hx
      exact ⟨hxf, hxin, hxr.released hxf hxp ⟨b.id, hr, b.id.self_mem_ancestors⟩⟩)
  refine ⟨h₂, g₁.trans g₂, p₂, fun hg hnot => ?_⟩
  obtain ⟨hin, hfold⟩ := f₁ hg hnot
  exact ⟨g₂.blocks _ hin, fun qc hj hv => (hfold qc hj hv).forward g₂⟩

end

end Cachey.HotStuff
