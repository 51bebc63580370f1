/-
# What holds of the executions of a call

Much of what a call does leaves no trace in the executed prefix: it keeps books, inserts blocks,
moves pointers, votes, sends.  `Calm` says so.  The rest is `execBlock`, one block at a time.

`Moves.executing`: what every calm change and every execution of a block of the tree keeps, every
call keeps.
-/
import Cachey.HotStuff.Tree

namespace Cachey.HotStuff

def Effect.isExec : Effect → Bool
  | .exec _ => true
  | _ => false

/-- Nothing is executed: the configuration, the marks, and what the journal says of executions,
commands and callers are the same. -/
structure Calm (n n' : Replica) : Prop where
  sets : n'.sets = n.sets
  epoch : n'.epoch = n.epoch
  bExec : n'.bExec = n.bExec
  applied : n'.applied = n.applied
  executed : n'.out.filter Effect.isExec = n.out.filter Effect.isExec
  deliveries : n'.out.filter Effect.isDelivery = n.out.filter Effect.isDelivery

namespace Calm

variable {E : Env} {n n' : Replica}

theorem refl (n : Replica) : Calm n n := ⟨rfl, rfl, rfl, rfl, rfl, rfl⟩

theorem trans {a b c : Replica} (h₁ : Calm a b) (h₂ : Calm b c) : Calm a c where
  sets := h₂.sets.trans h₁.sets
  epoch := h₂.epoch.trans h₁.epoch
  bExec := h₂.bExec.trans h₁.bExec
  applied := h₂.applied.trans h₁.applied
  executed := h₂.executed.trans h₁.executed
  deliveries := h₂.deliveries.trans h₁.deliveries

theorem emit (n : Replica) {e : Effect} (he : e.isExec = false) (hd : e.isDelivery = false) :
    Calm n (n.emit e) :=
  ⟨rfl, rfl, rfl, rfl, List.filter_cons_of_neg (by simp [he]), List.filter_cons_of_neg (by simp [hd])⟩

theorem aside (h : Aside n n') : Calm n n' := by
  refine ⟨h.sets, h.epoch, h.bExec, h.applied, ?_, h.deliveries⟩
  have hkey : ∀ l : List Effect,
      l.filter Effect.isExec = (l.filter Effect.isKey).filter Effect.isExec := by
    intro l
    rw [List.filter_filter]
    refine List.filter_congr fun e _ => ?_
    cases e <;> simp [Effect.isExec, Effect.isKey]
  rw [hkey, h.journal, ← hkey]

theorem persistLocked (pe : PersistEntry) (n : Replica) : Calm n (n.persistLocked pe).1 := by
  unfold Replica.persistLocked
  split
  · exact refl n
  · exact Calm.trans (b := { n with writes := n.writes.tail }) ⟨rfl, rfl, rfl, rfl, rfl, rfl⟩
      (emit _ rfl rfl)

theorem record (b : Block) (n : Replica) : Calm n (n.record b) :=
  Calm.trans (b := { n with blocks := n.blocks.insert b.id b }) ⟨rfl, rfl, rfl, rfl, rfl, rfl⟩
    (persistLocked _ _)

theorem castVote (b : Block) (n : Replica) : Calm n (n.castVote E b).1 := by
  unfold Replica.castVote
  split
  · exact refl n
  · have hv : Calm n ({ n with vHeight := b.height }.persistVotedLocked b.height).1 :=
      Calm.trans (b := { n with vHeight := b.height }) ⟨rfl, rfl, rfl, rfl, rfl, rfl⟩
        (persistLocked _ _)
    dsimp only
    split
    · exact hv
    · exact hv.trans (emit _ rfl rfl)

theorem raiseLock (p : Block) (n : Replica) : Calm n (n.raiseLock p) := by
  unfold Replica.raiseLock
  split
  · exact ⟨rfl, rfl, rfl, rfl, rfl, rfl⟩
  · exact refl n

end Calm

/-- Every block of the tree has the property. -/
def Standing (Q : Block → Prop) (n : Replica) : Prop := ∀ id b, n.blocks.lookup id = some b → Q b

theorem Grown.standing {n : Replica} (ht : Grown n.blocks) : Standing Block.Good n :=
  fun id b hb => (ht id b hb).2

/-- The block whose command is applied. -/
def Effect.command : Effect → Option Block
  | .apply b => some b
  | _ => none

/-- The blocks a journal applies, oldest first. -/
def appliedIn (out : List Effect) : List Block := (out.filterMap Effect.command).reverse

theorem appliedIn_cons (e : Effect) (out : List Effect) :
    appliedIn (e :: out) = appliedIn out ++ e.command.toList := by
  unfold appliedIn
  cases h : e.command <;> simp [h]

theorem appliedIn_markAppliedLocked (id : BlockID) (n : Replica) :
    appliedIn (n.markAppliedLocked id).out = appliedIn n.out := by
  unfold Replica.markAppliedLocked
  split
  · rfl
  · dsimp only
    split
    · simp [Replica.emit, appliedIn_cons, Effect.command]
    · rfl

theorem appliedIn_execBlock (E : Env) (b : Block) (n : Replica) :
    appliedIn (n.execBlock E b).out =
      appliedIn n.out ++ if b.cmd ≠ [] ∧ b.id ≠ genesisID then [b] else [] := by
  unfold Replica.execBlock
  dsimp only
  rw [activateTransitionLocked_eq, appliedIn_markAppliedLocked]
  split <;> simp [Replica.emit, appliedIn_cons, Effect.command]

section Executing

variable {E : Env} {S : Scope} {Q : Block → Prop} {P : Replica → Prop} {n n' : Replica}

theorem foldl_execBlock_keeps (hexec : ∀ n b, Q b → P n → P (n.execBlock E b)) :
    ∀ (l : List Block) (n : Replica), (∀ b ∈ l, Q b) → P n → P (l.foldl (Replica.execBlock E) n)
  | [], _, _, h => h
  | b :: l, n, hl, h =>
    foldl_execBlock_keeps hexec l _ (fun x hx => hl x (List.mem_cons_of_mem _ hx))
      (hexec n b (hl b List.mem_cons_self) h)

theorem commitUpToLocked_config (n : Replica) {gp : Block} (hne : gp.id ≠ n.bExec) :
    ((n.commitUpToLocked E gp).sets, (n.commitUpToLocked E gp).epoch) =
        (n.span gp).foldl (activation E) (n.sets, n.epoch) ∧
      (n.commitUpToLocked E gp).bExec = gp.id := by
  obtain ⟨a, w, o, heq, _⟩ := commitUpToLocked_eq (E := E) n hne
  have hc := Calm.persistLocked (.applied gp.id) { n with
    sets := ((n.span gp).foldl (activation E) (n.sets, n.epoch)).1
    epoch := ((n.span gp).foldl (activation E) (n.sets, n.epoch)).2
    bExec := gp.id, applied := a, notify := w, out := o }
  rw [heq]
  exact ⟨Prod.ext hc.sets hc.epoch, hc.bExec⟩

/-- **What folding a certificate commits**: nothing, or the span that ends in the grandparent of
the certified block. -/
theorem onNewQCLocked_commits (ht : Grown n.blocks) (qc : QC) :
    ((n.onNewQCLocked E qc).sets = n.sets ∧ (n.onNewQCLocked E qc).epoch = n.epoch ∧
      (n.onNewQCLocked E qc).bExec = n.bExec) ∨
    ∃ gp, n.blocks.lookup gp.id = some gp ∧ gp.id = qc.nodeID.parent.parent ∧
      n.qcHigh.height < qc.nodeID.height ∧ n.heightOf n.bExec < gp.height ∧
      ((n.onNewQCLocked E qc).sets, (n.onNewQCLocked E qc).epoch) =
        (n.span gp).foldl (activation E) (n.sets, n.epoch) ∧
      (n.onNewQCLocked E qc).bExec = gp.id := by
  rcases onNewQCLocked_cases (E := E) n qc with heq | ⟨hval, hlt, ⟨_, heq⟩ | ⟨c, hc, heq⟩⟩
  · rw [heq]
    exact Or.inl ⟨rfl, rfl, rfl⟩
  · obtain ⟨w, o, hrec⟩ := persistRecordLocked_eq (.qc qc) { n with qcHigh := qc }
    rw [heq, hrec]
    exact Or.inl ⟨rfl, rfl, rfl⟩
  · obtain ⟨w, o, hrec⟩ := persistRecordLocked_eq (.qc qc) { n with qcHigh := qc }
    rw [heq, hrec]
    have hlock : ∀ p, ∃ l, Replica.raiseLock p { n with qcHigh := qc, writes := w, out := o } =
        { n with qcHigh := qc, writes := w, out := o, bLock := l } := by
      intro p
      unfold Replica.raiseLock
      split
      · exact ⟨p.id, rfl⟩
      · exact ⟨n.bLock, rfl⟩
    rcases chainRule_cases (E := E) { n with qcHigh := qc, writes := w, out := o } c with
      ⟨_, _, h⟩ | ⟨_, _, h⟩ | ⟨p, _, _, h⟩ | ⟨p, _, _, _, h⟩ | ⟨p, gp, hp, _, hgp, _, hhigh, h⟩
    · rw [h]
      exact Or.inl ⟨rfl, rfl, rfl⟩
    · rw [h]
      exact Or.inl ⟨rfl, rfl, rfl⟩
    · rw [h]
      exact Or.inl ⟨rfl, rfl, rfl⟩
    · obtain ⟨l, hl⟩ := hlock p
      rw [h, hl]
      exact Or.inl ⟨rfl, rfl, rfl⟩
    · -- the chain is read off the ids
      obtain ⟨_, hcp, -, -⟩ := ht.child hc hp
      obtain ⟨_, hpp, hgpid, -⟩ := ht.child hp hgp
      have hne : gp.id ≠ n.bExec := by
        intro hex
        have hin : n.blocks.lookup n.bExec = some gp := by rw [← hex, hgpid]; exact hgp
        have hheight : n.heightOf n.bExec = gp.height := by simp [Replica.heightOf, hin]
        exact absurd hheight (Nat.ne_of_lt hhigh)
      obtain ⟨l, hl⟩ := hlock p
      have hheight : qc.height = qc.nodeID.height :=
        (ht.certified hval hc).1.trans (ht.height hc)
      refine Or.inr ⟨gp, hgpid ▸ hgp, by rw [hgpid, hcp, hpp], hheight ▸ hlt, hhigh, ?_⟩
      rw [h, hl]
      exact commitUpToLocked_config { n with qcHigh := qc, writes := w, out := o, bLock := l } hne

theorem Standing.path (hq : Standing Q n) (ht : Grown n.blocks) {b : Block} (hb : Q b) :
    ∀ x ∈ n.path b, Q x := by
  intro x hx
  rcases ht.mem_walk _ b x hx with rfl | hx
  · exact hb
  · exact hq _ x hx

variable (hcalm : ∀ n n', Calm n n' → P n → P n')

include hcalm

theorem commitUpToLocked_keeps (hexec : ∀ n b, Q b → P n → P (n.execBlock E b))
    (ht : Grown n.blocks) (hq : Standing Q n) {gp : Block} (hgp : Q gp) (h : P n) :
    P (n.commitUpToLocked E gp) := by
  refine hcalm _ _ (Calm.persistLocked _ _) (foldl_execBlock_keeps hexec _ n (fun b hb => ?_) h)
  exact hq.path ht hgp b ((List.takeWhile_sublist _).subset (List.mem_reverse.mp hb))

theorem onNewQCLocked_keeps (hexec : ∀ n b, Q b → P n → P (n.execBlock E b)) (ht : Grown n.blocks)
    (hq : Standing Q n) (qc : QC) (h : P n) : P (n.onNewQCLocked E qc) := by
  have hraise : ∀ m : Replica, m = { n with qcHigh := qc }.persistRecordLocked (.qc qc) →
      m.blocks = n.blocks ∧ Calm n m := by
    rintro m rfl
    obtain ⟨w, o, heq⟩ := persistRecordLocked_eq (.qc qc) { n with qcHigh := qc }
    refine ⟨by rw [heq], Calm.trans (b := { n with qcHigh := qc }) ?_ (Calm.persistLocked _ _)⟩
    exact ⟨rfl, rfl, rfl, rfl, rfl, rfl⟩
  rcases onNewQCLocked_cases (E := E) n qc with heq | ⟨_, _, ⟨_, heq⟩ | ⟨c, _, heq⟩⟩
  · rw [heq]
    exact h
  · rw [heq]
    exact hcalm _ _ (hraise _ rfl).2 h
  · rw [heq]
    obtain ⟨hblocks, hc⟩ := hraise _ rfl
    generalize { n with qcHigh := qc }.persistRecordLocked (.qc qc) = m at hblocks hc
    have hm : P m := hcalm _ _ hc h
    rcases chainRule_cases (E := E) m c with
      ⟨_, _, heq⟩ | ⟨_, _, heq⟩ | ⟨p, _, _, heq⟩ | ⟨p, _, _, _, heq⟩ | ⟨p, gp, _, _, hgp, _, _, heq⟩
    · rw [heq]
      exact hm
    · rw [heq]
      exact hcalm m _ ⟨rfl, rfl, rfl, rfl, rfl, rfl⟩ hm
    · rw [heq]
      exact hm
    · rw [heq]
      exact hcalm _ _ (Calm.raiseLock p m) hm
    · rw [heq]
      have hlocked : (m.raiseLock p).blocks = n.blocks := by
        unfold Replica.raiseLock
        split <;> exact hblocks
      refine commitUpToLocked_keeps hcalm hexec (hlocked ▸ ht) (fun id b hb => hq id b ?_)
        (hq _ gp (hblocks ▸ hgp)) (hcalm _ _ (Calm.raiseLock p m) hm)
      rwa [hlocked] at hb

/-- **What calm changes and executions keep, every call keeps.** -/
theorem Moves.executing (hexec : ∀ n b, b.Good → P n → P (n.execBlock E b)) {n₀ : Replica}
    (hg : Growing n₀ n) (hm : Moves E S n n') (h : P n) : P n' := by
  refine (hm.invariant (P := fun n => Growing n₀ n ∧ P n) (fun n n' h hm => ⟨h.1.move hm, ?_⟩)
    ⟨hg, h⟩).2
  obtain ⟨hg, h⟩ := h
  cases hm with
  | aside ha => exact hcalm _ _ (Calm.aside ha) h
  | insert b _ _ _ _ _ => exact hcalm _ _ (Calm.record b n) h
  | own cmd _ _ _ => exact hcalm _ _ ((Calm.record _ n).trans (Calm.emit _ rfl rfl)) h
  | fold qc _ _ => exact onNewQCLocked_keeps hcalm hexec hg.tree hg.tree.standing qc h
  | adopt qc _ _ _ => exact hcalm n _ ⟨rfl, rfl, rfl, rfl, rfl, rfl⟩ h
  | vote b _ _ _ => exact hcalm _ _ (Calm.castVote b n) h
  | collect vc _ => exact hcalm n _ ⟨rfl, rfl, rfl, rfl, rfl, rfl⟩ h

theorem Planted.executing (hexec : ∀ n b, b.Good → P n → P (n.execBlock E b)) (hp : Planted n)
    (hout : n.out = []) {C : Ctx} (inp : Input) (h : P n) : P (n.handle E C inp) := by
  have hg : Growing n n := ⟨hp.tree, fun _ h => h, rfl, by simp [hout]⟩
  exact (handle_moves hp.parked inp).1.executing hcalm hexec hg h

end Executing

end Cachey.HotStuff
