/-
# Vote histories over a block tree

The abstract argument behind chained agreement protocols, with no replica code in it.  Blocks
form a tree (`parent`) with heights; correct replicas vote, and the HISTORY lists their votes,
newest first.  A block is certified when a quorum -- counting the faulty members as having voted
for everything -- voted for it.

A vote is SOUND with respect to the votes before it when

* it is higher than every earlier vote of the same replica (`ascending`),
* its block's parent is certified and lower (`parentCertified`, `parentLower`),
* the replica's lock at that moment is not above the parent (`respectsLock`), and locks never
  go down (`lockGrows`),
* the lock it leaves behind follows some certificate at least as high as the parent's
  (`lockFollows`): not below the parent of the block that certificate certifies.

A block `g` is COMMITTED by a chain `g <- p <- c` with `c` certified if, at that moment, every
vote cast at a height that falls into a gap of the chain -- strictly between `g` and `p` or
strictly between `p` and `c` -- is for a descendant of `g`.  On consecutive heights there are no
gaps and nothing to check.

**Result.**  Every certified block at least as high as a committed one extends it
(`Committed.extends_of_certified`), so any two committed blocks lie on one branch.

The induction that carries this is over TIME: what a replica's lock was when it voted for `c`
depends on a certificate formed earlier, whose voters voted for `c` earlier still.
-/
import Cachey.Lib.Quorum

namespace Cachey.VoteChain

/-- One vote of a correct replica, with the height of its lock before and after. -/
structure Vote (R B : Type) where
  voter : R
  block : B
  lock : ℕ
  lockAfter : ℕ

variable {R B : Type} {b a : B}

/-- `b` is a descendant of `a`, or `a` itself. -/
def Extends (parent : B → B) (b a : B) : Prop := ∃ k, parent^[k] b = a

theorem Extends.refl (parent : B → B) (b : B) : Extends parent b b := ⟨0, rfl⟩

theorem Extends.of_parent {parent : B → B} (h : Extends parent (parent b) a) :
    Extends parent b a := by
  obtain ⟨k, hk⟩ := h
  exact ⟨k + 1, by rw [Function.iterate_succ_apply]; exact hk⟩

theorem Extends.parent_of_ne {parent : B → B} (h : Extends parent b a) (hne : b ≠ a) :
    Extends parent (parent b) a := by
  obtain ⟨k, hk⟩ := h
  cases k with
  | zero => exact absurd hk hne
  | succ k => exact ⟨k, by rw [Function.iterate_succ_apply] at hk; exact hk⟩

theorem Extends.trans {parent : B → B} {c : B} (h₁ : Extends parent c b) (h₂ : Extends parent b a) :
    Extends parent c a := by
  obtain ⟨k, rfl⟩ := h₁
  obtain ⟨j, rfl⟩ := h₂
  exact ⟨j + k, by rw [Function.iterate_add_apply]⟩

theorem Extends.comparable {parent : B → B} {c : B} (h₁ : Extends parent c a)
    (h₂ : Extends parent c b) : Extends parent a b ∨ Extends parent b a := by
  obtain ⟨k, rfl⟩ := h₁
  obtain ⟨j, rfl⟩ := h₂
  rcases Nat.le_total k j with h | h
  · exact Or.inl ⟨j - k, by rw [← Function.iterate_add_apply, Nat.sub_add_cancel h]⟩
  · exact Or.inr ⟨k - j, by rw [← Function.iterate_add_apply, Nat.sub_add_cancel h]⟩

/-- `r` voted for `b`. -/
def Voted (H : List (Vote R B)) (r : R) (b : B) : Prop := ∃ e ∈ H, e.voter = r ∧ e.block = b

theorem Voted.mono {H H' : List (Vote R B)} {r : R} (h : Voted H r b) (hsub : ∀ e ∈ H, e ∈ H') :
    Voted H' r b := by
  obtain ⟨e, he, h⟩ := h
  exact ⟨e, hsub e he, h⟩

/-- The world of one protocol run: its members, the faulty ones, and the block tree. -/
structure World (R B : Type) where
  members : Finset R
  faulty : Finset R
  f : ℕ
  height : B → ℕ
  parent : B → B
  root : B
  rootHeight : height root = 0
  rootParent : parent root = root

namespace World

/-- `b` is the root, or a quorum voted for it if every faulty member did. -/
def Certified (W : World R B) (H : List (Vote R B)) (b : B) : Prop :=
  b = W.root ∨ ∃ Q ⊆ W.members, 2 * W.f + 1 ≤ Q.card ∧ ∀ r ∈ Q, r ∉ W.faulty → Voted H r b

variable {W : World R B} {H past : List (Vote R B)} {e : Vote R B}

theorem Certified.mono {H' : List (Vote R B)} {b : B} (h : W.Certified H b)
    (hsub : ∀ e ∈ H, e ∈ H') : W.Certified H' b := by
  rcases h with h | ⟨Q, hQ, hc, hv⟩
  · exact Or.inl h
  · exact Or.inr ⟨Q, hQ, hc, fun r hr hf => (hv r hr hf).mono hsub⟩

/-- What a correct replica's vote keeps, given the votes before it. -/
structure Sound (W : World R B) (past : List (Vote R B)) (e : Vote R B) : Prop where
  correct : e.voter ∉ W.faulty
  ascending : ∀ e' ∈ past, e'.voter = e.voter → W.height e'.block < W.height e.block
  parentCertified : W.Certified past (W.parent e.block)
  parentLower : W.height (W.parent e.block) < W.height e.block
  respectsLock : e.lock ≤ W.height (W.parent e.block)
  lockGrows : e.lock ≤ e.lockAfter
  lockKept : ∀ e' ∈ past, e'.voter = e.voter → e'.lockAfter ≤ e.lock
  lockFollows : ∃ q, W.Certified past q ∧ W.height (W.parent e.block) ≤ W.height q ∧
    W.height (W.parent q) ≤ e.lockAfter

/-- A history all of whose votes are sound. -/
def History (W : World R B) : List (Vote R B) → Prop
  | [] => True
  | e :: past => W.Sound past e ∧ W.History past

theorem History.suffix (h : W.History H) (hs : past <:+ H) : W.History past := by
  induction H with
  | nil => rw [List.suffix_nil.mp hs]; exact h
  | cons e H ih =>
    rcases List.suffix_cons_iff.mp hs with rfl | hs'
    · exact h
    · exact ih h.2 hs'

theorem History.sound (h : W.History H) (hs : (e :: past) <:+ H) : W.Sound past e :=
  (h.suffix hs).1

theorem exists_past (he : e ∈ H) : ∃ past, (e :: past) <:+ H := by
  obtain ⟨l, past, rfl⟩ := List.append_of_mem he
  exact ⟨past, ⟨l, rfl⟩⟩

theorem mem_of_past {x : Vote R B} (hs : (e :: past) <:+ H) (hx : x ∈ past) : x ∈ H :=
  hs.subset (List.mem_cons_of_mem _ hx)

/-- Two votes of one replica: they are the same, or one was cast before the other. -/
theorem order_cases {past₁ past₂ : List (Vote R B)} {e₁ e₂ : Vote R B} (h₁ : (e₁ :: past₁) <:+ H)
    (h₂ : (e₂ :: past₂) <:+ H) :
    (e₁ :: past₁) = (e₂ :: past₂) ∨ (e₁ :: past₁) <:+ past₂ ∨ (e₂ :: past₂) <:+ past₁ := by
  rcases Nat.le_total (e₁ :: past₁).length (e₂ :: past₂).length with hl | hl
  · have hs := List.suffix_of_suffix_length_le h₁ h₂ hl
    rcases List.suffix_cons_iff.mp hs with h | h
    · exact Or.inl h
    · exact Or.inr (Or.inl h)
  · have hs := List.suffix_of_suffix_length_le h₂ h₁ hl
    rcases List.suffix_cons_iff.mp hs with h | h
    · exact Or.inl h.symm
    · exact Or.inr (Or.inr h)

/-- Of two votes of one replica the lower one was cast first. -/
theorem History.earlier {e' : Vote R B} (h : W.History H) (hs : (e :: past) <:+ H) (he' : e' ∈ H)
    (hv : e'.voter = e.voter) (hlt : W.height e'.block < W.height e.block) : e' ∈ past := by
  obtain ⟨past', hs'⟩ := exists_past he'
  rcases order_cases hs hs' with heq | hlate | hearly
  · obtain ⟨rfl, _⟩ := List.cons.inj heq
    exact absurd hlt (lt_irrefl _)
  · -- `e` was cast before `e'`, so `e'` is the higher one
    have := (h.sound hs').ascending e (hlate.subset List.mem_cons_self) hv.symm
    exact absurd hlt (by omega)
  · exact hearly.subset List.mem_cons_self

/-! ## Certificates -/

section Safety

variable [DecidableEq R] {W : World R B} (hF : FaultBound W.members W.faulty W.f)

include hF

variable {H : List (Vote R B)} {b : B}

/-- A certified block other than the root was voted for by a correct replica. -/
theorem Certified.exists_vote (h : W.Certified H b) (hb : b ≠ W.root) : ∃ e ∈ H, e.block = b := by
  rcases h with h | ⟨Q, hQ, hc, hv⟩
  · exact absurd h hb
  · obtain ⟨r, hr, hf⟩ := hF.exists_correct hQ (by omega)
    obtain ⟨e, he, _, hb⟩ := hv r hr hf
    exact ⟨e, he, hb⟩

/-- Two certified blocks other than the root have a correct voter in common. -/
theorem Certified.common_voter {H' : List (Vote R B)} {b' : B} (h : W.Certified H b)
    (h' : W.Certified H' b') (hb : b ≠ W.root) (hb' : b' ≠ W.root) :
    ∃ e ∈ H, ∃ e' ∈ H', e.voter = e'.voter ∧ e.block = b ∧ e'.block = b' := by
  rcases h with h | ⟨Q, hQ, hc, hv⟩
  · exact absurd h hb
  rcases h' with h' | ⟨Q', hQ', hc', hv'⟩
  · exact absurd h' hb'
  obtain ⟨r, hr, hr', hf⟩ := hF.exists_correct_inter hQ hQ' hc hc'
  obtain ⟨e, he, hev, heb⟩ := hv r hr hf
  obtain ⟨e', he', hev', heb'⟩ := hv' r hr' hf
  exact ⟨e, he, e', he', hev.trans hev'.symm, heb, heb'⟩

theorem Certified.parent (hH : W.History H) (h : W.Certified H b) (hb : b ≠ W.root) :
    W.Certified H (W.parent b) ∧ W.height (W.parent b) < W.height b := by
  obtain ⟨e, he, rfl⟩ := h.exists_vote hF hb
  obtain ⟨past, hs⟩ := exists_past he
  have s := hH.sound hs
  exact ⟨s.parentCertified.mono fun x hx => mem_of_past hs hx, s.parentLower⟩

theorem Certified.height_ancestor (hH : W.History H) :
    ∀ (k : ℕ) {b : B}, W.Certified H b →
      W.Certified H (W.parent^[k] b) ∧ W.height (W.parent^[k] b) ≤ W.height b
  | 0, _, h => ⟨h, le_refl _⟩
  | k + 1, b, h => by
    rw [Function.iterate_succ_apply]
    by_cases hb : b = W.root
    · subst hb
      rw [W.rootParent]
      exact Certified.height_ancestor hH k h
    · obtain ⟨hp, hlt⟩ := h.parent hF hH hb
      obtain ⟨h₁, h₂⟩ := Certified.height_ancestor hH k hp
      exact ⟨h₁, by omega⟩

theorem Certified.height_le_of_extends (hH : W.History H) {a : B} (h : W.Certified H b)
    (hx : Extends W.parent b a) : W.height a ≤ W.height b := by
  obtain ⟨k, rfl⟩ := hx
  exact (Certified.height_ancestor hF hH k h).2

theorem Certified.extends_root (hH : W.History H) :
    ∀ (k : ℕ) {b : B}, W.height b ≤ k → W.Certified H b → Extends W.parent b W.root := by
  intro k
  induction k with
  | zero =>
    intro b hk h
    by_cases hb : b = W.root
    · exact hb ▸ Extends.refl _ _
    · have := (h.parent hF hH hb).2
      omega
  | succ k ih =>
    intro b hk h
    by_cases hb : b = W.root
    · exact hb ▸ Extends.refl _ _
    · obtain ⟨hp, hlt⟩ := h.parent hF hH hb
      exact Extends.of_parent (ih (by omega) hp)

theorem Certified.unique (hH : W.History H) {b' : B} (h : W.Certified H b) (h' : W.Certified H b')
    (hb : b ≠ W.root) (hb' : b' ≠ W.root) (hh : W.height b = W.height b') : b = b' := by
  obtain ⟨e, he, e', he', hv, rfl, rfl⟩ := h.common_voter hF h' hb hb'
  obtain ⟨past, hs⟩ := exists_past he
  obtain ⟨past', hs'⟩ := exists_past he'
  rcases order_cases hs hs' with heq | hl | hl
  · exact congrArg Vote.block (List.cons.inj heq).1
  · have := (hH.sound hs').ascending e (hl.subset List.mem_cons_self) hv
    omega
  · have := (hH.sound hs).ascending e' (hl.subset List.mem_cons_self) hv.symm
    omega

end Safety

/-! ## Commits -/

/-- `g` is committed through `p` and `c`: at some moment `c` was certified, and no vote in a gap
of the chain was for a block off the branch of `g`. -/
structure CommitChain (W : World R B) (H : List (Vote R B)) (g p c : B) : Prop where
  link₁ : W.parent c = p
  link₂ : W.parent p = g
  notRoot₁ : c ≠ W.root
  notRoot₂ : p ≠ W.root
  moment : ∃ past, past <:+ H ∧ W.Certified past c ∧
    ∀ e ∈ past, (W.height g < W.height e.block ∧ W.height e.block < W.height p) ∨
        (W.height p < W.height e.block ∧ W.height e.block < W.height c) →
      Extends W.parent e.block g

theorem CommitChain.certified {g p c : B} (h : W.CommitChain H g p c) : W.Certified H c := by
  obtain ⟨past, hs, hc, _⟩ := h.moment
  exact hc.mono fun x hx => hs.subset hx

/-- A committed block: the root, or one with a commit chain above it. -/
def Committed (W : World R B) (H : List (Vote R B)) (g : B) : Prop :=
  g = W.root ∨ ∃ p c, W.CommitChain H g p c

theorem Committed.mono {H' : List (Vote R B)} {g : B} (h : W.Committed H g) (hs : H <:+ H') :
    W.Committed H' g := by
  rcases h with h | ⟨p, c, h⟩
  · exact Or.inl h
  · obtain ⟨past, hp, hc⟩ := h.moment
    exact Or.inr ⟨p, c, h.link₁, h.link₂, h.notRoot₁, h.notRoot₂, past, hp.trans hs, hc⟩

section Safety

variable [DecidableEq R] {W : World R B} (hF : FaultBound W.members W.faulty W.f)
  {H : List (Vote R B)} (hH : W.History H) {g p c : B}

include hF hH

theorem CommitChain.heights (h : W.CommitChain H g p c) :
    W.Certified H p ∧ W.Certified H g ∧ W.height g < W.height p ∧ W.height p < W.height c := by
  have hp := (h.certified).parent hF hH h.notRoot₁
  rw [h.link₁] at hp
  have hg := hp.1.parent hF hH h.notRoot₂
  rw [h.link₂] at hg
  exact ⟨hp.1, hg.1, hg.2, hp.2⟩

/-- A certified block strictly between `g` and `c` extends `g`: it is `p`, or it sits in a gap,
and then a replica that voted for it and for `c` did so before the commit. -/
theorem CommitChain.extends_below (h : W.CommitChain H g p c) {w : B} (hw : W.Certified H w)
    (hr : w ≠ W.root) (hlo : W.height g < W.height w) (hhi : W.height w < W.height c) :
    Extends W.parent w g := by
  obtain ⟨hpc, -, -, -⟩ := h.heights hF hH
  by_cases hwp : W.height w = W.height p
  · have : w = p := hw.unique hF hH hpc hr h.notRoot₂ hwp
    subst this
    exact Extends.of_parent (h.link₂ ▸ Extends.refl _ _)
  · obtain ⟨past, hs, hc, hgap⟩ := h.moment
    obtain ⟨e, he, e', he', hv, rfl, rfl⟩ := hw.common_voter hF hc hr h.notRoot₁
    obtain ⟨before, hb⟩ := exists_past he'
    have hmem : e ∈ before := hH.earlier (hb.trans hs) he hv hhi
    refine hgap e (hb.subset (List.mem_cons_of_mem _ hmem)) ?_
    rcases Nat.lt_or_ge (W.height e.block) (W.height p) with hl | hl
    · exact Or.inl ⟨hlo, hl⟩
    · exact Or.inr ⟨by omega, hhi⟩

/-- **The lock protects the commit.**  A replica that has voted for `c` votes from then on only
for blocks whose parent is at least as high as `g`. -/
theorem CommitChain.parent_height (h : W.CommitChain H g p c) :
    ∀ (k : ℕ) {past : List (Vote R B)} {e : Vote R B}, past.length ≤ k → (e :: past) <:+ H →
      Voted past e.voter c → W.height g ≤ W.height (W.parent e.block) := by
  obtain ⟨hpc, hgc, hgp, hpc'⟩ := h.heights hF hH
  intro k
  -- over time: `k` bounds the number of votes before the one considered
  induction k with
  | zero =>
    intro past e hk _ ⟨e₀, he₀, _⟩
    rw [List.length_eq_zero_iff.mp (Nat.le_zero.mp hk)] at he₀
    simp at he₀
  | succ k ih =>
    intro past e hk hs ⟨e₀, he₀, hv₀, hb₀⟩
    obtain ⟨past₀, hs₀⟩ := exists_past he₀
    have hs₀H := hs₀.trans ((List.suffix_cons e past).trans hs)
    have sound₀ := hH.sound hs₀H
    obtain ⟨q, hq, hqp, hql⟩ := sound₀.lockFollows
    rw [hb₀, h.link₁] at hqp
    have hqH : W.Certified H q := hq.mono fun x hx => mem_of_past hs₀H hx
    -- `q` is not the root: `p`, which is not above it, has a parent below it
    have hroot : q ≠ W.root := by
      rintro rfl
      rw [W.rootHeight] at hqp
      omega
    -- the certificate the lock followed when `c` was voted for does not leave `g` below
    have hgq : W.height g ≤ W.height (W.parent q) := by
      rcases Nat.lt_trichotomy (W.height q) (W.height c) with hlt | heq | hgt
      · have hext := h.extends_below hF hH hqH hroot (by omega) hlt
        have hne : q ≠ g := by
          rintro rfl
          omega
        exact ((hqH.parent hF hH hroot).1).height_le_of_extends hF hH (hext.parent_of_ne hne)
      · have : q = c := hqH.unique hF hH (h.certified) hroot h.notRoot₁ heq
        subst this
        rw [h.link₁]
        omega
      · obtain ⟨e₁, he₁, e₂, he₂, hv, hb₁, hb₂⟩ :=
          hq.common_voter hF (h.certified) hroot h.notRoot₁
        obtain ⟨past₁, hs₁⟩ := exists_past he₁
        have hs₁H := hs₁.trans ((List.suffix_cons e₀ past₀).trans hs₀H)
        have hmem : e₂ ∈ past₁ := hH.earlier hs₁H he₂ hv.symm (by rw [hb₁, hb₂]; exact hgt)
        have hlen : past₁.length ≤ k := by
          have l₀ := hs₀.length_le
          have l₁ := hs₁.length_le
          simp only [List.length_cons] at l₀ l₁
          omega
        rw [← hb₁]
        exact ih hlen hs₁H ⟨e₂, hmem, hv.symm, hb₂⟩
    have hkept := (hH.sound hs).lockKept e₀ he₀ hv₀
    have := (hH.sound hs).respectsLock
    omega

theorem CommitChain.extends_of_certified (h : W.CommitChain H g p c) :
    ∀ (k : ℕ) {w : B}, W.height w ≤ k → W.Certified H w → W.height g ≤ W.height w →
      Extends W.parent w g := by
  obtain ⟨_, hgc, hgp, hpc⟩ := h.heights hF hH
  intro k
  induction k with
  | zero =>
    intro w hk hw hg
    by_cases hr : w = W.root
    · subst hr
      by_cases hgr : g = W.root
      · exact hgr ▸ Extends.refl _ _
      · have := (hgc.parent hF hH hgr).2
        omega
    · have := (hw.parent hF hH hr).2
      omega
  | succ k ih =>
    intro w hk hw hg
    by_cases hr : w = W.root
    · have := W.rootHeight
      exact ih (by rw [hr]; omega) hw hg
    rcases Nat.lt_trichotomy (W.height w) (W.height c) with hlt | heq | hgt
    · rcases Nat.lt_or_ge (W.height g) (W.height w) with hgw | hgw
      · exact h.extends_below hF hH hw hr hgw hlt
      · have hpar := (hw.parent hF hH hr).2
        have hgr : g ≠ W.root := by
          rintro rfl
          have := W.rootHeight
          omega
        have : w = g := hw.unique hF hH hgc hr hgr (by omega)
        exact this ▸ Extends.refl _ _
    · have : w = c := hw.unique hF hH (h.certified) hr h.notRoot₁ heq
      subst this
      exact Extends.of_parent (h.link₁ ▸ Extends.of_parent (h.link₂ ▸ Extends.refl _ _))
    · -- someone voted for `c` and then for `w`
      obtain ⟨hwp, hlt⟩ := hw.parent hF hH hr
      obtain ⟨e, he, e', he', hv, rfl, hb'⟩ :=
        hw.common_voter hF (h.certified) hr h.notRoot₁
      obtain ⟨past, hs⟩ := exists_past he
      have hmem : e' ∈ past := hH.earlier hs he' hv.symm (by rw [hb']; exact hgt)
      have hge := h.parent_height hF hH past.length (le_refl _) hs ⟨e', hmem, hv.symm, hb'⟩
      exact Extends.of_parent (ih (by omega) hwp hge)

theorem Committed.extends_of_certified {g w : B} (h : W.Committed H g) (hw : W.Certified H w)
    (hle : W.height g ≤ W.height w) : Extends W.parent w g := by
  rcases h with rfl | ⟨p, c, h⟩
  · exact hw.extends_root hF hH _ (le_refl _)
  · exact h.extends_of_certified hF hH _ (le_refl _) hw hle

theorem Committed.certified {g : B} (h : W.Committed H g) : W.Certified H g := by
  rcases h with rfl | ⟨p, c, h⟩
  · exact Or.inl rfl
  · exact (h.heights hF hH).2.1

end Safety

end World

end Cachey.VoteChain
