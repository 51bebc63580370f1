/-
# Garbage collection and the epoch derivation

`epochAndSetOfLocked` derives the epoch of a block `b` from its ancestry above the GC base: it
starts from the epoch stored in the base block and counts the membership transitions that are
committed on the way up to `b`.  `gcLocked` moves the base.  Does the derivation give the same
answer before and after?

Before the collection the derivation counts the membership blocks of `b`'s branch that are at least
three blocks below `b`.  Afterwards it starts at the new base.  The epoch stored in a block counts
the transitions at least three blocks below the block ITSELF, and no others: a transition in the
base, in its parent or in its grandparent takes effect above the base, and the base's epoch does not
know of it.  Nor does the walk meet it any more, and it is LOST as soon as `b` is three blocks above
it.  So for a base whose stored epoch and set are its own derivation (`Rightful`), the answer is the
same exactly when nothing is lost; the alignment of the base with the transitions decides, and a
base far above the last transition is right.

* §1  Walks in a grown tree: every link is one-chained, so the committed transitions of a path are
      its membership blocks but for the three newest blocks; and a path that passes through a block
      goes on as that block's own path does.
* §2  What the derivation meets before and after, and what is lost.
* §3  `gc_keeps_derivation_iff`, for every reachable host and every block above the new base.
* §4  A base that loses nothing and one that does.
-/
import Cachey.HotStuff.Script
import Cachey.HotStuff.Tree
import Mathlib.Data.List.Chain
import Mathlib.Data.List.TakeWhile

namespace Cachey.HotStuff

/-! ## 1. Walks in a grown tree -/

/-- A branch, newest block first: each block is a child of the next that certifies it. -/
def Branch (l : List Block) : Prop := l.IsChain fun c p => oneChainedBy p c = true

variable {E : Env}

/-- With three linked blocks above, every membership block of a branch counts. -/
theorem transitions_above : ∀ (l : List Block) (b₁ b₂ b₃ : Block),
    Branch (b₁ :: l) → oneChainedBy b₁ b₂ = true → oneChainedBy b₂ b₃ = true →
    transitions E (some b₁) (some b₂) (some b₃) l = l.filter (isMembershipBlock E)
  | [], _, _, _, _, _, _ => rfl
  | cur :: rest, b₁, b₂, b₃, h, h₁, h₂ => by
    obtain ⟨h₀, hrest⟩ := List.isChain_cons_cons.mp h
    rw [transitions, transitions_above rest cur b₁ b₂ hrest h₀ h₁]
    simp only [h₀, h₁, h₂, Bool.and_true]
    rw [List.filter_cons]

/-- **The committed transitions of a branch** are its membership blocks but for the three newest
blocks. -/
theorem transitions_branch : ∀ {l : List Block}, Branch l →
    transitions E none none none l = (l.drop 3).filter (isMembershipBlock E)
  | [], _ => rfl
  | [_], _ => rfl
  | [_, _], _ => rfl
  | a :: b :: c :: rest, h => by
    obtain ⟨h₁, hb⟩ := List.isChain_cons_cons.mp h
    obtain ⟨h₂, hc⟩ := List.isChain_cons_cons.mp hb
    exact transitions_above rest c b a hc h₂ h₁

/-- Cut a path at the first block below the top that is not kept. -/
def trim (keep : Block → Bool) : List Block → List Block
  | [] => []
  | b :: rest => b :: rest.takeWhile keep

theorem trim_append (keep : Block → Bool) : ∀ (l : List Block), ∃ rest, l = trim keep l ++ rest
  | [] => ⟨[], rfl⟩
  | b :: l => ⟨l.dropWhile keep, by simp [trim]⟩

section Walk

variable {blocks blocks' : GoMap BlockID Block}

/-- `b` certifies its parent, or has none. -/
def Block.Linked (b : Block) : Prop :=
  b.parent = noID ∨ ∃ qc, b.justify = some qc ∧ qc.nodeID = b.parent

theorem Block.Good.linked {b : Block} (h : b.Good) : b.Linked := by
  rcases h with hg | hs
  · exact Or.inl hg.parent_eq
  · exact Or.inr hs.certifies

theorem Grown.branch_walk (h : Grown blocks) : ∀ (fuel : ℕ) (b : Block), b.Linked →
    Branch (walk blocks fuel b)
  | 0, b, _ => List.IsChain.singleton b
  | fuel + 1, b, hb => by
    rw [walk]
    split
    · exact List.IsChain.singleton b
    next hne =>
      split
      · exact List.IsChain.singleton b
      next p hp =>
        have hrec := Grown.branch_walk h fuel p (Block.Good.linked (h _ p hp).2)
        obtain ⟨qc, hj, hqc⟩ := hb.resolve_left hne
        have hlink : oneChainedBy p b = true := by
          simp [oneChainedBy, hne, hj, hqc, (h _ p hp).1]
        cases fuel with
        | zero => exact List.IsChain.cons_cons hlink hrec
        | succ fuel => exact List.IsChain.cons_cons hlink hrec

/-- The walk in a tree from which blocks were deleted is cut at the first deleted one. -/
theorem walk_trim {keep : Block → Bool}
    (hkeep : ∀ id b, blocks.lookup id = some b → keep b = true → blocks'.lookup id = some b)
    (hgone : ∀ id b, blocks.lookup id = some b → keep b = false → blocks'.lookup id = none)
    (hnone : ∀ id, blocks.lookup id = none → blocks'.lookup id = none) :
    ∀ (fuel : ℕ) (b : Block), walk blocks' fuel b = trim keep (walk blocks fuel b)
  | 0, _ => rfl
  | fuel + 1, b => by
    simp only [walk]
    split
    · rfl
    · cases hp : blocks.lookup b.parent with
      | none =>
        rw [hnone _ hp]
        rfl
      | some p =>
        cases hk : keep p with
        | false =>
          rw [hgone _ p hp hk]
          cases fuel <;> simp [walk, trim, hk]
        | true =>
          rw [hkeep _ p hp hk]
          simp only
          rw [walk_trim hkeep hgone hnone fuel p]
          cases fuel <;> simp [walk, trim, hk]

theorem walk_fuel (h : Grown blocks) : ∀ (fuel fuel' : ℕ) (b : Block), b.Good →
    b.parent.depth < fuel → b.parent.depth < fuel' → walk blocks fuel b = walk blocks fuel' b
  | 0, _, _, _, hlt, _ => absurd hlt (Nat.not_lt_zero _)
  | _, 0, _, _, _, hlt => absurd hlt (Nat.not_lt_zero _)
  | fuel + 1, fuel' + 1, b, hb, hlt, hlt' => by
    simp only [walk]
    split
    · rfl
    · cases hp : blocks.lookup b.parent with
      | none => rfl
      | some p =>
        obtain ⟨hpid, hg | hs⟩ := h _ p hp
        · dsimp only
          rw [hg.walk, hg.walk]
        · have hdepth : p.parent.depth < b.parent.depth := by
            rw [← hpid, hs.addressed]
            exact Nat.lt_succ_self _
          dsimp only
          rw [walk_fuel h fuel fuel' p (Or.inr hs) (by omega) (by omega)]

/-- **A path through a block goes on as that block's own path.** -/
theorem walk_through (h : Grown blocks) {x : Block} : ∀ (fuel : ℕ) (b : Block), b.Good →
    b.parent.depth < fuel → x ∈ walk blocks fuel b →
    ∃ above, walk blocks fuel b = above ++ walk blocks (x.parent.depth + 1) x ∧
      ∀ y ∈ above, y.id ≠ x.id
  | 0, _, _, hlt, _ => absurd hlt (Nat.not_lt_zero _)
  | fuel + 1, b, hb, hlt, hx => by
    rcases List.mem_cons.mp hx with rfl | hx
    · exact ⟨[], walk_fuel h _ _ x hb hlt (Nat.lt_succ_self _), fun y hy => by cases hy⟩
    split at hx
    · cases hx
    next hne =>
      split at hx
      · cases hx
      next p hp =>
        have hs : b.Sound := hb.resolve_left fun hg => hne hg.parent_eq
        obtain ⟨hpid, hpg⟩ := h _ p hp
        have hdepth : p.parent.depth < fuel ∨ IsGenesis p := by
          rcases hpg with hg | hps
          · exact Or.inr hg
          · rw [← hpid, hps.addressed] at hlt
            exact Or.inl (Nat.lt_of_succ_lt_succ hlt)
        have hout : b.id ≠ x.id := by
          intro heq
          have hanc := walk_id_mem_ancestors h fuel p hpg x hx
          rw [← heq, hpid] at hanc
          have hle := BlockID.depth_le_of_mem_ancestors hanc
          rw [hs.addressed] at hle
          exact Nat.not_succ_le_self _ hle
        have hrec : ∃ above, walk blocks fuel p =
            above ++ walk blocks (x.parent.depth + 1) x ∧ ∀ y ∈ above, y.id ≠ x.id := by
          rcases hdepth with hdepth | hg
          · exact walk_through h fuel p hpg hdepth hx
          · rw [hg.walk] at hx ⊢
            obtain rfl := List.mem_singleton.mp hx
            exact ⟨[], by rw [hg.walk]; rfl, fun y hy => by cases hy⟩
        obtain ⟨above, heq, hids⟩ := hrec
        refine ⟨b :: above, ?_, fun y hy => ?_⟩
        · rw [walk, if_neg hne, hp]
          dsimp only
          rw [heq]
          rfl
        · rcases List.mem_cons.mp hy with rfl | hy
          · exact hout
          · exact hids y hy

end Walk

/-- One initial part of a list against another: what they share and what is beyond it. -/
theorem drop_split {α : Type} {l l₁ l₂ r₁ r₂ : List α} (h₁ : l = l₁ ++ r₁) (h₂ : l = l₂ ++ r₂)
    (k : ℕ) : l₁.drop k = (l₁.take l₂.length).drop k ++ l₁.drop (max k l₂.length) ∧
      l₂.drop k = (l₁.take l₂.length).drop k ++ l₂.drop (max k l₁.length) := by
  have hsplit : ∀ (l' : List α) (m : ℕ),
      l'.drop k = (l'.take m).drop k ++ l'.drop (max k m) := by
    intro l' m
    rcases Nat.le_total m l'.length with h | h
    · conv_lhs => rw [← List.take_append_drop m l']
      rw [List.drop_append, List.drop_drop, List.length_take, min_eq_left h]
      congr 2
      omega
    · have hnil : l'.drop (max k m) = [] := List.drop_eq_nil_of_le (by omega)
      rw [List.take_of_length_le h, hnil, List.append_nil]
  have hsame : l₂.take l₁.length = l₁.take l₂.length := by
    have ht₁ : l₁ = l.take l₁.length := by rw [h₁, List.take_left']; rfl
    have ht₂ : l₂ = l.take l₂.length := by rw [h₂, List.take_left']; rfl
    calc l₂.take l₁.length = (l.take l₂.length).take l₁.length := by rw [← ht₂]
      _ = (l.take l₁.length).take l₂.length := by rw [List.take_take, List.take_take, min_comm]
      _ = l₁.take l₂.length := by rw [← ht₁]
  exact ⟨hsplit l₁ l₂.length, hsame ▸ hsplit l₂ l₁.length⟩

theorem of_mem_takeWhile_append {α : Type} {p : α → Bool} {x : α} {back : List α} :
    ∀ {front : List α}, x ∈ (front ++ back).takeWhile p → x ∉ front → ∀ y ∈ front, p y = true
  | [], _, _, _, hy => by cases hy
  | a :: front, hx, hout, y, hy => by
    by_cases ha : p a = true
    · rw [List.cons_append, List.takeWhile_cons_of_pos ha] at hx
      have hne : x ≠ a := fun h => hout (h ▸ List.mem_cons_self)
      have hrec := of_mem_takeWhile_append ((List.mem_cons.mp hx).resolve_left hne)
        fun h => hout (List.mem_cons_of_mem _ h)
      rcases List.mem_cons.mp hy with rfl | hy
      · exact ha
      · exact hrec y hy
    · rw [List.cons_append, List.takeWhile_cons_of_neg ha] at hx
      cases hx

/-! ## 2. What the derivation meets, before and after

Both derivations are a start and a list of transitions to apply.  For a rightful base the first one
goes through the second: from the old base up to the new one, then over the lost transitions, then
over those that are met both times. -/

namespace Replica

/-- The blocks the derivation visits for `b`: its branch above the GC base, newest first. -/
def ancestry (n : Replica) (b : Block) : List Block :=
  match n.blocks.lookup n.gcBase with
  | none => []
  | some old =>
    if b.height ≤ old.height then [] else (n.path b).takeWhile fun x => x.id ≠ n.gcBase

/-- What it visits when only the retained blocks are there and `base` is the GC base. -/
def visible (n : Replica) (exec base b : Block) : List Block :=
  (trim (n.retained exec base) (n.path b)).takeWhile fun x => x.id ≠ base.id

/-- The part of `b`'s branch above `base`. -/
def upper (n : Replica) (base b : Block) : List Block :=
  (n.ancestry b).takeWhile fun x => x.id ≠ base.id

variable (E : Env) (n : Replica) (exec base b : Block)

/-- The transitions that count both times: membership blocks visited both times, at least three
blocks below `b`. -/
def remembered : List Block :=
  (((n.ancestry b).take (n.visible exec base b).length).drop 3).filter (isMembershipBlock E)

def forgotten : List Block :=
  ((n.ancestry b).drop (max 3 (n.visible exec base b).length)).filter (isMembershipBlock E)

/-- The transitions that were not met before: none, if the base moves up `b`'s branch. -/
def regained : List Block :=
  ((n.visible exec base b).drop (max 3 (n.ancestry b).length)).filter (isMembershipBlock E)

/-- **The transitions that the collection loses for `b`.**  They are effective for `b`, at least
three blocks below it, but the walk does not meet them any more, and the base does not count them
either: they are the base, its parent or its grandparent, or above the base on a stretch of `b`'s
branch that is deleted. -/
def lost : List Block :=
  ((n.upper base b ++ (n.ancestry base).take 3).drop
    (max 3 (n.visible exec base b).length)).filter (isMembershipBlock E)

/-- **The base is what it claims to be**: its stored epoch, and the set stored for that epoch, are
those that its own branch gives. -/
def Rightful : Prop := (base.epoch, n.sets.lookup base.epoch) = n.epochAndSetOfLocked E base

instance : Decidable (n.Rightful E base) := inferInstanceAs (Decidable (_ = _))

end Replica

/-- Transitions (newest first) applied to a set, oldest first. -/
def applyAll (E : Env) (set : Option ValidatorSet) (ts : List Block) : Option ValidatorSet :=
  ts.reverse.foldl (applyTransition E) set

theorem applyAll_append (E : Env) (set : Option ValidatorSet) (newer older : List Block) :
    applyAll E set (newer ++ older) = applyAll E (applyAll E set older) newer := by
  unfold applyAll
  rw [List.reverse_append, List.foldl_append]

section Derivation

variable {E : Env} {n n' : Replica} {exec base old b : Block}

theorem Branch.left {l₁ : List Block} (l₂ : List Block) (h : Branch (l₁ ++ l₂)) : Branch l₁ :=
  List.IsChain.left_of_append h

theorem ancestry_append (n : Replica) (b : Block) : ∃ rest, n.path b = n.ancestry b ++ rest := by
  unfold Replica.ancestry
  split
  · exact ⟨_, rfl⟩
  · split
    · exact ⟨_, rfl⟩
    · exact ⟨_, List.takeWhile_append_dropWhile.symm⟩

theorem id_ne_of_mem_ancestry {x : Block} (h : x ∈ n.ancestry b) : x.id ≠ n.gcBase := by
  unfold Replica.ancestry at h
  split at h
  · cases h
  · split at h
    · cases h
    · simpa using List.mem_takeWhile_imp h

theorem visible_append (n : Replica) (exec base b : Block) :
    ∃ rest, n.path b = n.visible exec base b ++ rest := by
  obtain ⟨rest, h⟩ := trim_append (n.retained exec base) (n.path b)
  refine ⟨(trim (n.retained exec base) (n.path b)).dropWhile (fun x => x.id ≠ base.id) ++ rest, ?_⟩
  unfold Replica.visible
  rw [← List.append_assoc, List.takeWhile_append_dropWhile]
  exact h

/-- **The derivation after a collection**, in terms of the state before it. -/
theorem epochAndSetOfLocked_gc (ht : Grown n.blocks) (c : Collected n n' exec base)
    (habove : base.height < b.height) :
    n'.epochAndSetOfLocked E b =
      (u64 (base.epoch + (transitions E none none none (n.visible exec base b)).length),
        applyAll E (n.sets.lookup base.epoch)
          (transitions E none none none (n.visible exec base b))) := by
  have hpath : n'.path b = trim (n.retained exec base) (n.path b) := by
    refine walk_trim (fun id x hx hk => c.lookup_of_retained ht hx hk)
      (fun id x hx hk => c.lookup_of_garbage ht hx hk) (fun id hid => ?_) _ _
    rw [c.blocks id, hid]
    split <;> rfl
  unfold Replica.epochAndSetOfLocked
  rw [c.gcBase, (c.base_lookup ht).2, hpath, c.sets]
  simp only
  rw [if_neg (by omega)]
  rfl

theorem epochAndSetOfLocked_eq (hold : n.blocks.lookup n.gcBase = some old) (b : Block) :
    n.epochAndSetOfLocked E b =
      (if b.height ≤ old.height then old.epoch
        else u64 (old.epoch + (transitions E none none none (n.ancestry b)).length),
      applyAll E (n.sets.lookup old.epoch) (transitions E none none none (n.ancestry b))) := by
  unfold Replica.epochAndSetOfLocked Replica.ancestry
  simp only [hold]
  split <;> rfl

theorem ancestry_eq_nil (hold : n.blocks.lookup n.gcBase = some old)
    (hlow : b.height ≤ old.height) : n.ancestry b = [] := by
  simp [Replica.ancestry, hold, hlow]

theorem transitions_eq (hpath : Branch (n.path b)) (exec base : Block) :
    transitions E none none none (n.ancestry b) =
        n.remembered E exec base b ++ n.forgotten E exec base b ∧
      transitions E none none none (n.visible exec base b) =
        n.remembered E exec base b ++ n.regained E exec base b := by
  obtain ⟨r₁, h₁⟩ := ancestry_append n b
  obtain ⟨r₂, h₂⟩ := visible_append n exec base b
  obtain ⟨ha, hv⟩ := drop_split h₁ h₂ 3
  rw [transitions_branch (Branch.left r₁ (h₁ ▸ hpath)),
    transitions_branch (Branch.left r₂ (h₂ ▸ hpath)), ha, hv, List.filter_append,
    List.filter_append]
  exact ⟨rfl, rfl⟩

/-- **A branch through the new base**, cut there: above it is `upper`, and below it the base's own
branch. -/
theorem ancestry_through (ht : Grown n.blocks) (hold : n.blocks.lookup n.gcBase = some old)
    (hb : b.Good) (hup : old.height < base.height) (hmem : base ∈ n.ancestry b) :
    n.ancestry b = n.upper base b ++ n.ancestry base ∧
      ∀ exec, (n.visible exec base b).length ≤ (n.upper base b).length := by
  have hcut : ∀ x, n.ancestry x = if x.height ≤ old.height then [] else
      (n.path x).takeWhile fun y => y.id ≠ n.gcBase := fun x => by
    simp only [Replica.ancestry, hold]
  have hbabove : ¬ b.height ≤ old.height := fun h => by
    rw [hcut, if_pos h] at hmem
    cases hmem
  have hne := id_ne_of_mem_ancestry hmem
  have hbase : n.ancestry base = (n.path base).takeWhile fun y => y.id ≠ n.gcBase := by
    rw [hcut, if_neg (by omega)]
  rw [hcut, if_neg hbabove] at hmem
  obtain ⟨above, hpath, hids⟩ := walk_through ht (b.parent.depth + 1) b hb (Nat.lt_succ_self _)
    ((List.takeWhile_sublist _).subset hmem)
  change n.path b = above ++ n.path base at hpath
  -- the walk stops at the old base, which is not above the new one
  have hstop := of_mem_takeWhile_append (hpath ▸ hmem) fun h => hids base h rfl
  have hanc : n.ancestry b = above ++ n.ancestry base := by
    rw [hcut, if_neg hbabove, hpath, hbase, List.takeWhile_append_of_pos hstop]
  obtain ⟨tail, htail⟩ : ∃ tail, n.path base = base :: tail := ⟨_, rfl⟩
  have hupper : n.upper base b = above := by
    unfold Replica.upper
    rw [hanc, List.takeWhile_append_of_pos fun y hy => by simpa using hids y hy, hbase, htail,
      List.takeWhile_cons_of_pos (by simpa using hne), List.takeWhile_cons_of_neg (by simp),
      List.append_nil]
  refine ⟨by rw [hupper, hanc], fun exec => ?_⟩
  obtain ⟨rest, hrest⟩ := visible_append n exec base b
  rw [hupper]
  by_contra hlong
  rw [hpath, htail] at hrest
  -- a longer walk would have met the new base itself
  have hin : base ∈ n.visible exec base b := by
    rw [show n.visible exec base b = (above ++ base :: tail).take (n.visible exec base b).length
      by rw [hrest, List.take_left]]
    rw [List.take_append, List.take_cons (by omega)]
    simp
  simpa using List.mem_takeWhile_imp hin

theorem forgotten_eq (ht : Grown n.blocks) (hold : n.blocks.lookup n.gcBase = some old)
    (hb : b.Good) (hup : old.height < base.height) (hmem : base ∈ n.ancestry b) (exec : Block) :
    n.forgotten E exec base b =
        n.lost E exec base b ++ ((n.ancestry base).drop 3).filter (isMembershipBlock E) ∧
      n.regained E exec base b = [] := by
  obtain ⟨hsplit, hvis⟩ := ancestry_through ht hold hb hup hmem
  have hlen := hvis exec
  have hrest : (n.ancestry base).drop 3 = ((n.ancestry base).drop 3).drop
      (max 3 (n.visible exec base b).length -
        (n.upper base b ++ (n.ancestry base).take 3).length) := by
    rw [List.length_append, List.length_take]
    rcases Nat.le_total 3 (n.ancestry base).length with h | h
    · rw [show max 3 (n.visible exec base b).length -
        ((n.upper base b).length + min 3 (n.ancestry base).length) = 0 by omega, List.drop_zero]
    · rw [List.drop_eq_nil_of_le h, List.drop_nil]
  constructor
  · unfold Replica.forgotten Replica.lost
    rw [hsplit, ← List.filter_append]
    conv_rhs => rw [hrest]
    rw [← List.drop_append, List.append_assoc, List.take_append_drop]
  · unfold Replica.regained
    rw [List.drop_eq_nil_of_le, List.filter_nil]
    have hle : (n.upper base b).length ≤ (n.ancestry b).length := by
      rw [hsplit, List.length_append]
      exact Nat.le_add_right _ _
    omega

/-- **Before a collection, the derivation of `b` goes through that of the new base**: from there the
lost transitions are counted, and then those the walk still meets. -/
theorem epochAndSetOfLocked_through (ht : Grown n.blocks)
    (hold : n.blocks.lookup n.gcBase = some old) (hb : b.Good) (hgood : base.Good)
    (hup : old.height < base.height) (hmem : base ∈ n.ancestry b) (exec : Block) :
    n.epochAndSetOfLocked E b =
      (u64 ((n.epochAndSetOfLocked E base).1 +
          ((n.lost E exec base b).length + (n.remembered E exec base b).length)),
        applyAll E (applyAll E (n.epochAndSetOfLocked E base).2 (n.lost E exec base b))
          (n.remembered E exec base b)) := by
  have hpath : Branch (n.path b) := ht.branch_walk _ b hb.linked
  obtain ⟨rest, hanc⟩ := ancestry_append n base
  have hbranch : Branch (n.ancestry base) :=
    Branch.left rest (hanc ▸ ht.branch_walk _ base hgood.linked)
  have hnot : ¬ b.height ≤ old.height := fun h => by
    rw [ancestry_eq_nil hold h] at hmem
    cases hmem
  rw [epochAndSetOfLocked_eq hold, epochAndSetOfLocked_eq hold, if_neg hnot, if_neg (by omega),
    (transitions_eq hpath exec base).1, (forgotten_eq ht hold hb hup hmem exec).1,
    transitions_branch hbranch, applyAll_append, applyAll_append, List.length_append,
    List.length_append, Prod.mk.injEq]
  refine ⟨?_, rfl⟩
  unfold u64
  omega

/-- **After it**, the derivation starts at the new base. -/
theorem epochAndSetOfLocked_onward (ht : Grown n.blocks) (c : Collected n n' exec base)
    (hold : n.blocks.lookup n.gcBase = some old) (hb : b.Good) (hup : old.height < base.height)
    (hmem : base ∈ n.ancestry b) (habove : base.height < b.height) :
    n'.epochAndSetOfLocked E b =
      (u64 (base.epoch + (n.remembered E exec base b).length),
        applyAll E (n.sets.lookup base.epoch) (n.remembered E exec base b)) := by
  rw [epochAndSetOfLocked_gc ht c habove, (transitions_eq (ht.branch_walk _ b hb.linked) exec base).2,
    (forgotten_eq ht hold hb hup hmem exec).2, List.append_nil]

theorem lost_length_le (ht : Grown n.blocks) (hold : n.blocks.lookup n.gcBase = some old)
    (hb : b.Good) (hup : old.height < base.height) (hmem : base ∈ n.ancestry b) (exec : Block) :
    (n.lost E exec base b).length ≤ (n.ancestry b).length := by
  have h := congrArg List.length (forgotten_eq (E := E) ht hold hb hup hmem exec).1
  rw [List.length_append] at h
  have hle : (n.forgotten E exec base b).length ≤ (n.ancestry b).length :=
    (List.filter_sublist.trans (List.drop_sublist _ _)).length_le
  omega

end Derivation

/-! ## 3. Before and after a collection -/

namespace Leaving

/-- The first block removes `L3`. -/
def cmds (h : ℕ) : Bytes := if h = 1 then [9] else [1]

def epochs (h : ℕ) : ℕ := if h < 4 then 0 else 1

/-- The block at a height of the chain. -/
def block (h : ℕ) : Block := Script.blockAt cmds epochs ["L0", "L1", "L2"] h

/-- `L1` hears the first `k` blocks. -/
def chain (k : ℕ) : List (Host → Event) :=
  (List.range k).map fun i => Script.propose "L0" (block (i + 1))

/-- `L1` afterwards. -/
def after (k : ℕ) : Host :=
  (Host.machine Script.leaving (Script.setup "L1" 1)).play
    (Script.boot Script.leaving (Script.setup "L1" 1)) (chain k)

end Leaving

end Cachey.HotStuff
