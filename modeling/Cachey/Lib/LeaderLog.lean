/-
# Logs written by leaders

The argument behind Raft's safety, without messages: replicas with a current term and a log,
terms that have at most one leader each, and five moves.

* `raise`  -- a replica moves to a higher term;
* `vote`   -- a replica votes in its term, and the ballot keeps the log it had at that moment;
* `elect`  -- a candidate becomes the leader of its term: its log is the START of the term's
  LINE, to which it adds a first entry of its own;
* `extend` -- the leader adds an entry to its line;
* `accept` -- a replica takes over a prefix `P` of the line of its current term: it keeps its log
  if that contains `P`, and replaces it by `P` otherwise.

Whatever a replica accepted or wrote is ACKNOWLEDGED.  Two invariants are kept: `Coherent`, which
is log matching and needs only that a term has one leader, and `Elections`, which needs a
majority of ballots behind every leader.  The main result is `leader_completeness`: a prefix that
a majority acknowledged in its last entry's term is part of the start of every later term.

The crux is an invariant that needs no look at the order of events (`kept`, `keptVote`): what a
replica acknowledged is still in its log, or in the log it voted with, UNLESS a leader in between
was elected without it.
-/
import Cachey.Lib.Quorum

namespace Cachey.LeaderLog

open Function (update)

/-! ## 1. Logs -/

section Logs

variable {α : Type} (term : α → ℕ)

/-- The term of the last entry, 0 for the empty log. -/
def lastTerm (l : List α) : ℕ := (l.getLast?.map term).getD 0

/-- The voting rule: a candidate's log `c` is at least as good as the voter's log `v`. -/
def UpToDate (c v : List α) : Prop :=
  lastTerm term v < lastTerm term c ∨ lastTerm term c = lastTerm term v ∧ v.length ≤ c.length

theorem UpToDate.refl (l : List α) : UpToDate term l l := Or.inr ⟨rfl, le_refl _⟩

@[simp] theorem lastTerm_nil : lastTerm term ([] : List α) = 0 := rfl

@[simp] theorem lastTerm_concat (l : List α) (e : α) : lastTerm term (l ++ [e]) = term e := by
  simp [lastTerm]

theorem exists_concat {l : List α} (h : l ≠ []) : ∃ p e, l = p ++ [e] :=
  ⟨l.dropLast, l.getLast h, (List.dropLast_append_getLast h).symm⟩

theorem comparable {p q l : List α} (hp : p <+: l) (hq : q <+: l) : p <+: q ∨ q <+: p :=
  List.prefix_or_prefix_of_prefix hp hq

end Logs

/-! ## 2. States and moves -/

/-- A vote, with the voter's log at that moment; `early` if the term had no leader yet. -/
structure Ballot (R α : Type) where
  voter : R
  cand : R
  term : ℕ
  log : List α
  early : Bool

/-- Replicas, leaders and what is on record about them. -/
structure State (R α : Type) where
  cur : R → ℕ
  log : R → List α
  lead : ℕ → Option R
  start : ℕ → List α
  line : ℕ → List α
  acks : List (R × List α)
  ballots : List (Ballot R α)

namespace State

variable {R α : Type} [DecidableEq R] (term : α → ℕ)

def init : State R α where
  cur := fun _ => 0
  log := fun _ => []
  lead := fun _ => none
  start := fun _ => []
  line := fun _ => []
  acks := []
  ballots := []

def raise (S : State R α) (r : R) (t : ℕ) : State R α := { S with cur := update S.cur r t }

def vote (S : State R α) (r c : R) : State R α :=
  { S with ballots := { voter := r, cand := c, term := S.cur r, log := S.log r,
                        early := (S.lead (S.cur r)).isNone } :: S.ballots }

def elect (S : State R α) (c : R) (e : α) : State R α :=
  { S with
    lead := update S.lead (S.cur c) (some c)
    start := update S.start (S.cur c) (S.log c)
    line := update S.line (S.cur c) (S.log c ++ [e])
    log := update S.log c (S.log c ++ [e])
    acks := (c, S.log c ++ [e]) :: S.acks }

def extend (S : State R α) (c : R) (e : α) : State R α :=
  { S with
    line := update S.line (S.cur c) (S.log c ++ [e])
    log := update S.log c (S.log c ++ [e])
    acks := (c, S.log c ++ [e]) :: S.acks }

open scoped Classical in
/-- The log after accepting `P`. -/
noncomputable def accepted (l P : List α) : List α := if P <+: l then l else P

open scoped Classical in
noncomputable def accept (S : State R α) (r : R) (P : List α) : State R α :=
  { S with
    log := update S.log r (accepted (S.log r) P)
    acks := if P ≠ [] ∧ lastTerm term P = S.cur r then (r, P) :: S.acks else S.acks }

end State

open State

section Records

variable {R α : Type} (term : α → ℕ)

/-- `r` acknowledged `C` in the term of its last entry. -/
def Acked (S : State R α) (r : R) (C : List α) : Prop :=
  C ≠ [] ∧ ∃ D, (r, D) ∈ S.acks ∧ C <+: D ∧ lastTerm term C = lastTerm term D

/-- Every prefix is part of the line its last entry was written in. -/
def Built (S : State R α) (l : List α) : Prop :=
  ∀ p, p <+: l → p ≠ [] → p <+: S.line (lastTerm term p)

end Records

/-! ## 3. Log matching

Nothing here needs a majority: a term has at most one leader because `elect` is only taken where
there is none.  `Built` reduces every question about a log to one about lines, and a line belongs to
one leader. -/

section Coherence

variable {R α : Type} {term : α → ℕ} {S S' : State R α} {l p : List α} {e : α} {t : ℕ} {c : R}

theorem Built.mono (h : Built term S l) (hl : ∀ t, S.line t <+: S'.line t) : Built term S' l :=
  fun p hp hne => (h p hp hne).trans (hl _)

theorem Built.of_initial (h : Built term S l) (hp : p <+: l) : Built term S p :=
  fun q hq hne => h q (hq.trans hp) hne

theorem Built.concat (h : Built term S l) (hline : l ++ [e] <+: S.line (term e)) :
    Built term S (l ++ [e]) := by
  intro p hp hne
  rcases List.prefix_concat_iff.mp hp with rfl | hp
  · rw [lastTerm_concat]
    exact hline
  · exact h p hp hne

/-- **Log matching.**  Lines start with older entries and continue with their own; every log is
built from lines; a leader's log is its line; what was acknowledged in the current term is still
there. -/
structure Coherent (term : α → ℕ) (S : State R α) : Prop where
  logs : ∀ r, Built term S (S.log r)
  lines : ∀ t, Built term S (S.line t)
  unled : ∀ t, S.lead t = none → S.line t = []
  startPrefix : ∀ t, S.start t <+: S.line t
  startLow : ∀ t, ∀ e ∈ S.start t, term e < t
  ownTerm : ∀ t, ∀ e ∈ (S.line t).drop (S.start t).length, term e = t
  bound : ∀ r, ∀ e ∈ S.log r, term e ≤ S.cur r
  leader : ∀ t r, S.lead t = some r → t ≤ S.cur r ∧ (S.cur r = t → S.log r = S.line t)
  acked : ∀ r C, (r, C) ∈ S.acks → C ≠ [] ∧ C <+: S.line (lastTerm term C) ∧
    lastTerm term C ≤ S.cur r ∧ (S.cur r = lastTerm term C → C <+: S.log r)

theorem Coherent.init : Coherent term (State.init : State R α) where
  logs := fun _ p hp hne => absurd (List.prefix_nil.mp hp) hne
  lines := fun _ p hp hne => absurd (List.prefix_nil.mp hp) hne
  unled := fun _ _ => rfl
  startPrefix := fun _ => List.prefix_rfl
  startLow := fun _ _ he => absurd he List.not_mem_nil
  ownTerm := fun _ _ he => absurd he (by simp [State.init])
  bound := fun _ _ he => absurd he List.not_mem_nil
  leader := fun _ _ h => absurd h (by simp [State.init])
  acked := fun _ _ h => absurd h List.not_mem_nil

theorem Coherent.led (h : Coherent term S) (hp : p <+: S.line t) (hne : p ≠ []) :
    S.lead t ≠ none := by
  intro hnone
  rw [h.unled t hnone] at hp
  exact hne (List.prefix_nil.mp hp)

theorem Coherent.term_le_of_line (h : Coherent term S) (he : e ∈ S.line t) : term e ≤ t := by
  obtain ⟨rest, hrest⟩ := h.startPrefix t
  have hown := h.ownTerm t e
  rw [← hrest, List.drop_left] at hown
  rw [← hrest] at he
  rcases List.mem_append.mp he with he | he
  · exact le_of_lt (h.startLow t e he)
  · exact le_of_eq (hown he)

theorem Coherent.term_le_last (h : Coherent term S) (hl : Built term S l) (hp : p <+: l)
    (he : e ∈ p) : term e ≤ lastTerm term p :=
  h.term_le_of_line ((hl p hp (List.ne_nil_of_mem he)).subset he)

/-- Prefixes of two logs that are equally long and end in the same term are equal. -/
theorem matching {l' q : List α} (hl : Built term S l) (hl' : Built term S l') (hp : p <+: l)
    (hq : q <+: l') (hlen : p.length = q.length) (hterm : lastTerm term p = lastTerm term q) :
    p = q := by
  by_cases hne : p = []
  · subst hne
    exact (List.eq_nil_of_length_eq_zero hlen.symm).symm
  · have hqne : q ≠ [] := by
      rintro rfl
      exact hne (List.eq_nil_of_length_eq_zero hlen)
    have h₁ := hl p hp hne
    have h₂ := hl' q hq hqne
    rw [← hterm] at h₂
    rcases comparable h₁ h₂ with hpq | hqp
    · exact hpq.eq_of_length hlen
    · exact (hqp.eq_of_length hlen.symm).symm

theorem Coherent.vote (h : Coherent term S) (r c : R) : Coherent term (S.vote r c) := { h with }

theorem Coherent.log_low (h : Coherent term S) (hlead : S.lead (S.cur c) = none) :
    ∀ x ∈ S.log c, term x < S.cur c := by
  intro x hx
  refine lt_of_le_of_ne (h.bound c x hx) fun heq => ?_
  obtain ⟨pre, post, hsplit⟩ := List.append_of_mem hx
  have hp : pre ++ [x] <+: S.log c := ⟨post, by rw [hsplit]; simp⟩
  have hline := h.logs c _ hp (by simp)
  rw [lastTerm_concat, heq] at hline
  exact h.led hline (by simp) hlead

variable [DecidableEq R]

theorem Coherent.raise (h : Coherent term S) {r : R} (ht : S.cur r ≤ t) :
    Coherent term (S.raise r t) where
  logs := h.logs
  lines := h.lines
  unled := h.unled
  startPrefix := h.startPrefix
  startLow := h.startLow
  ownTerm := h.ownTerm
  bound := fun x e he => by
    by_cases hx : x = r
    · subst hx
      simpa [State.raise] using (h.bound x e he).trans ht
    · simpa [State.raise, hx] using h.bound x e he
  leader := fun t' x hl => by
    obtain ⟨hle, hlog⟩ := h.leader t' x hl
    by_cases hx : x = r
    · subst hx
      simp only [State.raise, Function.update_self]
      exact ⟨hle.trans ht, fun heq => hlog (le_antisymm (heq ▸ ht) hle)⟩
    · simpa [State.raise, hx] using ⟨hle, hlog⟩
  acked := fun x C hC => by
    obtain ⟨h₁, h₂, h₃, h₄⟩ := h.acked x C hC
    by_cases hx : x = r
    · subst hx
      simp only [State.raise, Function.update_self]
      exact ⟨h₁, h₂, h₃.trans ht, fun heq => h₄ (le_antisymm (heq ▸ ht) h₃)⟩
    · simpa [State.raise, hx] using ⟨h₁, h₂, h₃, h₄⟩

/-- A leader's new entry, at the moment of election or later: the line grows by it. -/
theorem Coherent.grow (h : Coherent term S) (he : term e = S.cur c)
    (hline : S.line (S.cur c) <+: S.log c) (hlead : S.lead (S.cur c) = some c)
    (hstart : S.start (S.cur c) <+: S.log c)
    (hown : ∀ x ∈ (S.log c).drop (S.start (S.cur c)).length, term x = S.cur c) :
    Coherent term (S.extend c e) := by
  have hgrow : ∀ t, S.line t <+: (S.extend c e).line t := by
    intro t
    by_cases ht : t = S.cur c
    · subst ht
      simpa [State.extend] using hline.trans (List.prefix_append _ _)
    · simp [State.extend, ht]
  have hself : (S.extend c e).line (S.cur c) = S.log c ++ [e] := by simp [State.extend]
  have hbuilt : Built term (S.extend c e) (S.log c ++ [e]) :=
    ((h.logs c).mono hgrow).concat (by rw [he, hself])
  refine ⟨fun r => ?_, fun t => ?_, fun t ht => ?_, fun t => ?_, h.startLow, fun t x hx => ?_,
    fun r x hx => ?_, fun t r hl => ?_, fun r C hC => ?_⟩
  · by_cases hr : r = c
    · subst hr
      simpa [State.extend] using hbuilt
    · simpa [State.extend, hr] using (h.logs r).mono hgrow
  · by_cases ht : t = S.cur c
    · subst ht
      rw [hself]
      exact hbuilt
    · have hl : (S.extend c e).line t = S.line t := by simp [State.extend, ht]
      rw [hl]
      exact (h.lines t).mono hgrow
  · have hne : t ≠ S.cur c := fun heq => by
      rw [heq] at ht
      exact absurd (hlead.symm.trans ht) (by simp)
    simpa [State.extend, hne] using h.unled t ht
  · by_cases ht : t = S.cur c
    · subst ht
      rw [hself]
      exact hstart.trans (List.prefix_append _ _)
    · simpa [State.extend, ht] using h.startPrefix t
  · by_cases ht : t = S.cur c
    · subst ht
      rw [hself] at hx
      change x ∈ List.drop (S.start (S.cur c)).length _ at hx
      rw [List.drop_append_of_le_length hstart.length_le] at hx
      rcases List.mem_append.mp hx with hx | hx
      · exact hown x hx
      · rw [List.mem_singleton.mp hx, he]
    · have hl : (S.extend c e).line t = S.line t := by simp [State.extend, ht]
      rw [hl] at hx
      exact h.ownTerm t x hx
  · by_cases hr : r = c
    · subst hr
      simp only [State.extend, Function.update_self] at hx ⊢
      rcases List.mem_append.mp hx with hx | hx
      · exact h.bound r x hx
      · rw [List.mem_singleton.mp hx, he]
    · simp only [State.extend, Function.update_of_ne hr] at hx ⊢
      exact h.bound r x hx
  · obtain ⟨hle, hlog⟩ := h.leader t r hl
    refine ⟨hle, fun hcur => ?_⟩
    by_cases ht : t = S.cur c
    · subst ht
      obtain rfl : c = r := Option.some.inj (hlead.symm.trans hl)
      simp [State.extend]
    · have hr : r ≠ c := fun hrc => ht (by rw [← hrc]; exact hcur.symm)
      simpa [State.extend, ht, hr] using hlog hcur
  · simp only [State.extend, List.mem_cons, Prod.mk.injEq] at hC
    rcases hC with ⟨rfl, rfl⟩ | hC
    · refine ⟨by simp, ?_, ?_, fun _ => by simp [State.extend]⟩
      · rw [lastTerm_concat, he, hself]
      · rw [lastTerm_concat, he]
        exact le_refl _
    · obtain ⟨h₁, h₂, h₃, h₄⟩ := h.acked r C hC
      refine ⟨h₁, h₂.trans (hgrow _), h₃, fun hcur => ?_⟩
      by_cases hr : r = c
      · subst hr
        simpa [State.extend] using (h₄ hcur).trans (List.prefix_append _ _)
      · simpa [State.extend, hr] using h₄ hcur

theorem Coherent.extend (h : Coherent term S) (he : term e = S.cur c)
    (hlead : S.lead (S.cur c) = some c) : Coherent term (S.extend c e) := by
  have hlog := (h.leader _ c hlead).2 rfl
  refine h.grow he (hlog ▸ List.prefix_rfl) hlead (hlog ▸ h.startPrefix _) ?_
  rw [hlog]
  exact h.ownTerm _

theorem Coherent.elect (h : Coherent term S) (he : term e = S.cur c)
    (hlead : S.lead (S.cur c) = none) : Coherent term (S.elect c e) := by
  -- install the leader with its log as the whole line, then let it add the entry
  let S₁ : State R α :=
    { S with
      lead := update S.lead (S.cur c) (some c)
      start := update S.start (S.cur c) (S.log c)
      line := update S.line (S.cur c) (S.log c) }
  have hnil := h.unled _ hlead
  have hgrow : ∀ t, S.line t <+: S₁.line t := by
    intro t
    by_cases ht : t = S.cur c
    · subst ht
      rw [hnil]
      exact List.nil_prefix
    · simp [S₁, ht]
  have h₁ : Coherent term S₁ := by
    refine ⟨fun r => (h.logs r).mono hgrow, fun t => ?_, fun t ht => ?_, fun t => ?_,
      fun t x hx => ?_, fun t x hx => ?_, h.bound, fun t r hl => ?_, fun r C hC => ?_⟩
    · by_cases ht : t = S.cur c
      · subst ht
        simpa [S₁] using (h.logs c).mono hgrow
      · have hl : S₁.line t = S.line t := by simp [S₁, ht]
        rw [hl]
        exact (h.lines t).mono hgrow
    · have hne : t ≠ S.cur c := fun heq => absurd ht (by simp [S₁, heq])
      simp only [S₁, Function.update_of_ne hne] at ht ⊢
      exact h.unled t ht
    · by_cases ht : t = S.cur c
      · subst ht
        simp [S₁]
      · simpa [S₁, ht] using h.startPrefix t
    · by_cases ht : t = S.cur c
      · subst ht
        simp only [S₁, Function.update_self] at hx
        exact h.log_low hlead x hx
      · simp only [S₁, Function.update_of_ne ht] at hx
        exact h.startLow t x hx
    · by_cases ht : t = S.cur c
      · subst ht
        simp [S₁] at hx
      · simp only [S₁, Function.update_of_ne ht] at hx
        exact h.ownTerm t x hx
    · by_cases ht : t = S.cur c
      · subst ht
        simp only [S₁, Function.update_self] at hl ⊢
        obtain rfl := Option.some.inj hl
        exact ⟨le_refl _, fun _ => rfl⟩
      · simp only [S₁, Function.update_of_ne ht] at hl ⊢
        exact h.leader t r hl
    · obtain ⟨a₁, a₂, a₃, a₄⟩ := h.acked r C hC
      exact ⟨a₁, a₂.trans (hgrow _), a₃, a₄⟩
  have h₂ : Coherent term (S₁.extend c e) :=
    h₁.extend he (by simp [S₁])
  have heq : S₁.extend c e = S.elect c e := by
    simp [S₁, State.extend, State.elect]
  exact heq ▸ h₂

open scoped Classical in
variable {P : List α}

theorem prefix_accepted : P <+: accepted l P := by
  unfold accepted
  split
  · assumption
  · exact List.prefix_rfl

open scoped Classical in
theorem accepted_keeps {C line : List α} (hC : C <+: l) (hCl : C <+: line) (hP : P <+: line) :
    C <+: accepted l P := by
  unfold accepted
  split
  · exact hC
  next hnot =>
    rcases comparable hCl hP with h | h
    · exact h
    · exact absurd (h.trans hC) hnot

theorem Coherent.accept (h : Coherent term S) {r : R} (hP : P <+: S.line (S.cur r)) :
    Coherent term (S.accept term r P) := by
  have hPb : Built term S P := (h.lines _).of_initial hP
  have hlog : ∀ x, (S.accept term r P).log x =
      if x = r then accepted (S.log r) P else S.log x := by
    intro x
    by_cases hx : x = r
    · subst hx; simp [State.accept]
    · simp [State.accept, hx]
  refine ⟨fun x => ?_, h.lines, h.unled, h.startPrefix, h.startLow, h.ownTerm, fun x e he => ?_,
    fun t x hl => ?_, fun x C hC => ?_⟩
  · rw [hlog x]
    split
    · unfold accepted
      split
      · exact h.logs r
      · exact hPb
    · exact h.logs x
  · rw [hlog x] at he
    split at he
    next hx =>
      subst hx
      unfold accepted at he
      split at he
      · exact h.bound x e he
      · exact h.term_le_of_line (hP.subset he)
    · exact h.bound x e he
  · obtain ⟨hle, hl'⟩ := h.leader t x hl
    refine ⟨hle, fun hcur => ?_⟩
    rw [hlog x]
    split
    next hx =>
      -- a leader holds all of its line already
      subst hx
      have hcur' : S.cur x = t := hcur
      have hx' := hl' hcur'
      unfold accepted
      rw [if_pos]
      · exact hx'
      · rw [hx', ← hcur']
        exact hP
    · exact hl' hcur
  · have hold : (x, C) ∈ S.acks → C ≠ [] ∧ C <+: S.line (lastTerm term C) ∧
        lastTerm term C ≤ S.cur x ∧
        (S.cur x = lastTerm term C → C <+: (S.accept term r P).log x) := by
      intro hC
      obtain ⟨a₁, a₂, a₃, a₄⟩ := h.acked x C hC
      refine ⟨a₁, a₂, a₃, fun hcur => ?_⟩
      rw [hlog x]
      split
      next hx =>
        subst hx
        exact accepted_keeps (a₄ hcur) (hcur ▸ a₂) hP
      · exact a₄ hcur
    unfold State.accept at hC
    split at hC
    next hnew =>
      rcases List.mem_cons.mp hC with heq | hC
      · obtain ⟨rfl, rfl⟩ := Prod.mk.inj heq
        refine ⟨hnew.1, ?_, le_of_eq hnew.2, fun _ => ?_⟩
        · rw [hnew.2]
          exact hP
        · rw [hlog x, if_pos rfl]
          exact prefix_accepted
      · exact hold hC
    · exact hold hC

end Coherence

/-! ## 4. Elections

A replica that acknowledged `C` may lose it again, when it accepts from a leader that lacks `C`.
`Bypassed` names that leader.  It allows the invariant to be kept move by move; that there never is
such a leader, if `C` was committed, is shown afterwards. -/

section Voting

variable {R α : Type} {term : α → ℕ} {voters : Finset R} {S S' : State R α} {C : List α} {r c : R}

/-- A leader between the term of `C` and the term `t` was elected without `C`. -/
def Bypassed (term : α → ℕ) (S : State R α) (C : List α) (t : ℕ) : Prop :=
  ∃ t', lastTerm term C < t' ∧ t' < t ∧ S.lead t' ≠ none ∧ ¬ C <+: S.start t'

/-- **Elections.**  A replica votes once per term; a leader has a majority of early ballots from
voters whose log was no better; what was acknowledged is kept unless bypassed. -/
structure Elections (term : α → ℕ) (voters : Finset R) (S : State R α) : Prop where
  once : ∀ b ∈ S.ballots, ∀ b' ∈ S.ballots, b.voter = b'.voter → b.term = b'.term →
    b.cand = b'.cand
  past : ∀ b ∈ S.ballots, b.term ≤ S.cur b.voter
  builtVote : ∀ b ∈ S.ballots, Built term S b.log
  unledEarly : ∀ b ∈ S.ballots, S.lead b.term = none → b.early = true
  elected : ∀ t c, S.lead t = some c → ∃ Q ⊆ voters, voters.card < 2 * Q.card ∧
    ∀ r ∈ Q, ∃ b ∈ S.ballots, b.voter = r ∧ b.term = t ∧ b.cand = c ∧ b.early = true ∧
      UpToDate term (S.start t) b.log
  kept : ∀ r C, Acked term S r C → C <+: S.log r ∨ Bypassed term S C (S.cur r + 1)
  keptVote : ∀ b ∈ S.ballots, b.early = true → ∀ C, Acked term S b.voter C →
    lastTerm term C < b.term → C <+: b.log ∨ Bypassed term S C b.term

theorem Elections.init : Elections term voters (State.init : State R α) where
  once := fun _ hb => absurd hb List.not_mem_nil
  past := fun _ hb => absurd hb List.not_mem_nil
  builtVote := fun _ hb => absurd hb List.not_mem_nil
  unledEarly := fun _ hb => absurd hb List.not_mem_nil
  elected := fun _ _ h => absurd h (by simp [State.init])
  kept := fun _ _ ⟨_, _, hD, _⟩ => absurd hD List.not_mem_nil
  keptVote := fun _ hb => absurd hb List.not_mem_nil

theorem Bypassed.mono {t t' : ℕ} (h : Bypassed term S C t) (ht : t ≤ t')
    (hlead : ∀ x, S.lead x ≠ none → S'.lead x ≠ none ∧ S'.start x = S.start x) :
    Bypassed term S' C t' := by
  obtain ⟨x, h₁, h₂, h₃, h₄⟩ := h
  obtain ⟨h₅, h₆⟩ := hlead x h₃
  exact ⟨x, h₁, h₂.trans_le ht, h₅, h₆ ▸ h₄⟩

theorem Coherent.prefix_line (h : Coherent term S) (hC : Acked term S r C) :
    C <+: S.line (lastTerm term C) := by
  obtain ⟨_, D, hD, hCD, hterm⟩ := hC
  rw [hterm]
  exact hCD.trans (h.acked r D hD).2.1

theorem Coherent.acked_le (h : Coherent term S) (hC : Acked term S r C) :
    lastTerm term C ≤ S.cur r := by
  obtain ⟨_, D, hD, _, hterm⟩ := hC
  rw [hterm]
  exact (h.acked r D hD).2.2.1

/-- A vote, if the replica has not voted for another candidate in its term. -/
theorem Elections.vote (h : Elections term voters S) (hc : Coherent term S)
    (hfree : ∀ b ∈ S.ballots, b.voter = r → b.term = S.cur r → b.cand = c) :
    Elections term voters (S.vote r c) where
  once := by
    intro b hb b' hb' hv ht
    rcases List.mem_cons.mp hb with rfl | hb <;> rcases List.mem_cons.mp hb' with rfl | hb'
    · rfl
    · exact (hfree b' hb' hv.symm ht.symm).symm
    · exact hfree b hb hv ht
    · exact h.once b hb b' hb' hv ht
  past := fun b hb => by
    rcases List.mem_cons.mp hb with rfl | hb
    · exact le_refl _
    · exact h.past b hb
  builtVote := fun b hb => by
    rcases List.mem_cons.mp hb with rfl | hb
    · exact hc.logs r
    · exact h.builtVote b hb
  unledEarly := fun b hb hl => by
    rcases List.mem_cons.mp hb with rfl | hb
    · exact Option.isNone_iff_eq_none.mpr hl
    · exact h.unledEarly b hb hl
  elected := fun t x hl => by
    obtain ⟨Q, hQ, hmaj, hQb⟩ := h.elected t x hl
    refine ⟨Q, hQ, hmaj, fun y hy => ?_⟩
    obtain ⟨b, hb, hrest⟩ := hQb y hy
    exact ⟨b, List.mem_cons_of_mem _ hb, hrest⟩
  kept := h.kept
  keptVote := fun b hb hearly C hC hlt => by
    rcases List.mem_cons.mp hb with rfl | hb
    · -- the term has no leader yet, so whoever bypassed `C` led an earlier one
      refine (h.kept r C hC).imp_right fun ⟨t, h₁, h₂, h₃, h₄⟩ => ⟨t, h₁, ?_, h₃, h₄⟩
      refine lt_of_le_of_ne (Nat.lt_succ_iff.mp h₂) fun heq => h₃ ?_
      rw [heq]
      exact Option.isNone_iff_eq_none.mp hearly
    · exact h.keptVote b hb hearly C hC hlt

/-- A new acknowledgement of `D` in the current term of `r`, with `D` in its log: the records
stay in order. -/
theorem Elections.acknowledge (h : Elections term voters S) {D : List α}
    (hcur : lastTerm term D = S.cur r) {log : R → List α} (hD : D <+: log r)
    (hlog : ∀ x C, Acked term S x C → C <+: S.log x ∨ Bypassed term S C (S.cur x + 1) →
      C <+: log x ∨ Bypassed term S C (S.cur x + 1)) :
    Elections term voters { S with log := log, acks := (r, D) :: S.acks } where
  once := h.once
  past := h.past
  builtVote := h.builtVote
  unledEarly := h.unledEarly
  elected := h.elected
  kept := by
    rintro x C ⟨hne, E, hE, hCE, hterm⟩
    rcases List.mem_cons.mp hE with heq | hE
    · obtain ⟨rfl, rfl⟩ := Prod.mk.inj heq
      exact Or.inl (hCE.trans hD)
    · have hA : Acked term S x C := ⟨hne, E, hE, hCE, hterm⟩
      exact hlog x C hA (h.kept x C hA)
  keptVote := by
    rintro b hb hearly C ⟨hne, E, hE, hCE, hterm⟩ hlt
    rcases List.mem_cons.mp hE with heq | hE
    · -- the replica has not voted beyond its current term
      obtain ⟨rfl, rfl⟩ := Prod.mk.inj heq
      have := h.past b hb
      omega
    · exact h.keptVote b hb hearly C ⟨hne, E, hE, hCE, hterm⟩ hlt

variable [DecidableEq R]

variable (h : Elections term voters S)

include h

theorem Elections.raise {t : ℕ} (ht : S.cur r ≤ t) :
    Elections term voters (S.raise r t) where
  once := h.once
  past := fun b hb => by
    by_cases hr : b.voter = r
    · simpa [State.raise, hr] using (hr ▸ h.past b hb).trans ht
    · simpa [State.raise, hr] using h.past b hb
  builtVote := h.builtVote
  unledEarly := h.unledEarly
  elected := h.elected
  kept := fun x C hC => by
    refine (h.kept x C hC).imp_right fun hb => hb.mono ?_ fun y hy => ⟨hy, rfl⟩
    by_cases hx : x = r
    · subst hx
      simpa [State.raise] using ht
    · simp [State.raise, hx]
  keptVote := h.keptVote

theorem Elections.append {e : α} (he : term e = S.cur c) :
    Elections term voters { S with
      log := update S.log c (S.log c ++ [e]), acks := (c, S.log c ++ [e]) :: S.acks } := by
  refine h.acknowledge (by rw [lastTerm_concat, he]) (by simp) fun x C hC hk => ?_
  refine hk.imp_left fun hpre => ?_
  by_cases hx : x = c
  · subst hx
    simpa using hpre.trans (List.prefix_append _ _)
  · simpa [hx] using hpre

theorem Elections.extend (hc : Coherent term S) {e : α} (he : term e = S.cur c)
    (hlead : S.lead (S.cur c) = some c) : Elections term voters (S.extend c e) := by
  have hlog := (hc.leader _ c hlead).2 rfl
  have hgrow : ∀ t, S.line t <+: (S.extend c e).line t := by
    intro t
    by_cases ht : t = S.cur c
    · subst ht
      simp [State.extend, hlog]
    · simp [State.extend, ht]
  exact { h.append he with builtVote := fun b hb => (h.builtVote b hb).mono hgrow }

theorem Elections.elect {e : α} (he : term e = S.cur c) (hlead : S.lead (S.cur c) = none)
    (hnil : S.line (S.cur c) = [])
    (hwon : ∃ Q ⊆ voters, voters.card < 2 * Q.card ∧ ∀ r ∈ Q, ∃ b ∈ S.ballots, b.voter = r ∧
      b.term = S.cur c ∧ b.cand = c ∧ UpToDate term (S.log c) b.log) :
    Elections term voters (S.elect c e) := by
  have hsame : ∀ x, S.lead x ≠ none →
      (S.elect c e).lead x ≠ none ∧ (S.elect c e).start x = S.start x := by
    intro x hx
    have hne : x ≠ S.cur c := fun heq => hx (heq ▸ hlead)
    simpa [State.elect, hne] using hx
  have hgrow : ∀ t, S.line t <+: (S.elect c e).line t := by
    intro t
    by_cases ht : t = S.cur c
    · subst ht
      rw [hnil]
      exact List.nil_prefix
    · simp [State.elect, ht]
  have h₁ := h.append he
  refine
    { once := h.once
      past := h.past
      builtVote := fun b hb => (h.builtVote b hb).mono hgrow
      unledEarly := fun b hb hl => h.unledEarly b hb (by
        by_contra hne
        exact (hsame _ hne).1 hl)
      elected := fun t x hl => ?_
      kept := fun r C hC => (h₁.kept r C hC).imp_right fun hb => hb.mono (le_refl _) hsame
      keptVote := fun b hb hearly C hC hlt =>
        (h₁.keptVote b hb hearly C hC hlt).imp_right fun hb => hb.mono (le_refl _) hsame }
  by_cases ht : t = S.cur c
  · subst ht
    have hx : c = x := by simpa [State.elect] using hl
    subst hx
    obtain ⟨Q, hQ, hmaj, hQb⟩ := hwon
    refine ⟨Q, hQ, hmaj, fun r hr => ?_⟩
    obtain ⟨b, hb, h₁, h₂, h₃, h₄⟩ := hQb r hr
    exact ⟨b, hb, h₁, h₂, h₃, h.unledEarly b hb (h₂ ▸ hlead), by simpa [State.elect] using h₄⟩
  · have hl' : S.lead t = some x := by simpa [State.elect, ht] using hl
    simpa [State.elect, ht] using h.elected t x hl'

theorem Elections.accept (hc : Coherent term S) {P : List α} (hP : P <+: S.line (S.cur r))
    (hled : S.lead (S.cur r) ≠ none) : Elections term voters (S.accept term r P) := by
  -- what was acknowledged before is in the log still, or the leader was elected without it
  have hlog : ∀ x C, Acked term S x C → C <+: S.log x ∨ Bypassed term S C (S.cur x + 1) →
      C <+: update S.log r (accepted (S.log r) P) x ∨ Bypassed term S C (S.cur x + 1) := by
    rintro x C hC (hk | hk)
    · by_cases hx : x = r
      · subst hx
        rw [Function.update_self]
        by_cases hcur : lastTerm term C = S.cur x
        · exact Or.inl (accepted_keeps hk (hcur ▸ hc.prefix_line hC) hP)
        · have hlt : lastTerm term C < S.cur x := lt_of_le_of_ne (hc.acked_le hC) hcur
          by_cases hst : C <+: S.start (S.cur x)
          · exact Or.inl (accepted_keeps hk (hst.trans (hc.startPrefix _)) hP)
          · exact Or.inr ⟨S.cur x, hlt, Nat.lt_succ_self _, hled, hst⟩
      · exact Or.inl (by simpa [hx] using hk)
    · exact Or.inr hk
  unfold State.accept
  split
  next hnew =>
    exact h.acknowledge hnew.2 (by rw [Function.update_self]; exact prefix_accepted) hlog
  next => exact { h with kept := fun x C hC => hlog x C hC (h.kept x C hC) }

end Voting

/-! ## 5. Leader completeness

The induction is on the term.  The voters of a later leader and those who acknowledged `C` have a
member in common; it had `C` when it voted, unless a leader in between was elected without `C`, and
that the hypothesis excludes. -/

section Completeness

variable {R α : Type} {term : α → ℕ} {voters : Finset R} {S S' : State R α} {C X : List α} {t : ℕ}

/-- A log that is at least as good as one containing `C` contains `C`, provided the leaders in
between were elected with it. -/
theorem Coherent.contains_of_upToDate (h : Coherent term S) {c v : List α} (hC : C ≠ [])
    (hv : Built term S v) (hc : Built term S c) (hlow : ∀ e ∈ c, term e < t) (hCv : C <+: v)
    (hup : UpToDate term c v)
    (ih : ∀ t', lastTerm term C < t' → t' < t → S.lead t' ≠ none → C <+: S.start t') : C <+: c := by
  obtain ⟨C₀, x, rfl⟩ := exists_concat hC
  have hvne : v ≠ [] := by
    rintro rfl
    exact absurd (List.prefix_nil.mp hCv) (by simp)
  have hxv : term x ≤ lastTerm term v :=
    h.term_le_last hv List.prefix_rfl (hCv.subset (by simp))
  have hcne : c ≠ [] := by
    rintro rfl
    rcases hup with hup | ⟨_, hlen⟩
    · simp at hup
    · exact hvne (List.eq_nil_of_length_eq_zero (by simpa using hlen))
  have hcline := hc c List.prefix_rfl hcne
  have hvline := hv v List.prefix_rfl hvne
  rcases hup with hlt | ⟨heq, hlen⟩
  · -- the candidate's last entry is from a later term, whose leader had `C`
    rw [lastTerm_concat] at ih
    have hlast : lastTerm term c < t := by
      obtain ⟨c₀, y, rfl⟩ := exists_concat hcne
      rw [lastTerm_concat]
      exact hlow y (by simp)
    have hled := h.led hcline hcne
    have hst := ih (lastTerm term c) (hxv.trans_lt hlt) hlast hled
    rcases comparable hcline (h.startPrefix (lastTerm term c)) with hcs | hsc
    · exfalso
      obtain ⟨c₀, y, rfl⟩ := exists_concat hcne
      have := h.startLow _ y (hcs.subset (by simp))
      rw [lastTerm_concat] at this
      exact lt_irrefl _ this
    · exact hst.trans hsc
  · -- both logs are prefixes of one line, the candidate's is the longer one
    rw [heq] at hcline
    rcases comparable hvline hcline with hvc | hcv
    · exact hCv.trans hvc
    · rw [hcv.eq_of_length_le hlen]
      exact hCv

/-- A majority acknowledged `C` in the term of its last entry. -/
def Committed (term : α → ℕ) (voters : Finset R) (S : State R α) (C : List α) : Prop :=
  C ≠ [] ∧ ∃ Q ⊆ voters, voters.card < 2 * Q.card ∧ ∀ r ∈ Q, Acked term S r C

/-- `X` is decided: part of something committed in term `t` or before. -/
def Secured (term : α → ℕ) (voters : Finset R) (S : State R α) (t : ℕ) (X : List α) : Prop :=
  X = [] ∨ ∃ C, Committed term voters S C ∧ lastTerm term C ≤ t ∧ X <+: C

theorem Acked.mono {r : R} (h : Acked term S r C) (hsub : ∀ x ∈ S.acks, x ∈ S'.acks) :
    Acked term S' r C := by
  obtain ⟨hne, D, hD, hrest⟩ := h
  exact ⟨hne, D, hsub _ hD, hrest⟩

theorem Committed.mono (h : Committed term voters S C) (hsub : ∀ x ∈ S.acks, x ∈ S'.acks) :
    Committed term voters S' C := by
  obtain ⟨hne, Q, hQ, hmaj, hQa⟩ := h
  exact ⟨hne, Q, hQ, hmaj, fun r hr => (hQa r hr).mono hsub⟩

theorem Secured.mono {t' : ℕ} (h : Secured term voters S t X) (ht : t ≤ t')
    (hsub : ∀ x ∈ S.acks, x ∈ S'.acks) : Secured term voters S' t' X :=
  h.imp_right fun ⟨C, hC, hle, hX⟩ => ⟨C, hC.mono hsub, hle.trans ht, hX⟩

theorem Secured.of_initial {Y : List α} (h : Secured term voters S t X) (hY : Y <+: X) :
    Secured term voters S t Y := by
  rcases h with rfl | ⟨C, hC, hle, hX⟩
  · exact Or.inl (List.prefix_nil.mp hY)
  · exact Or.inr ⟨C, hC, hle, hY.trans hX⟩

variable [DecidableEq R]

theorem Elections.unique (h : Elections term voters S) {c : R} {Q : Finset R} {c' : R}
    (hl : S.lead t = some c) (hQ : Q ⊆ voters) (hmaj : voters.card < 2 * Q.card)
    (hv : ∀ r ∈ Q, ∃ b ∈ S.ballots, b.voter = r ∧ b.term = t ∧ b.cand = c') : c = c' := by
  obtain ⟨Q', hQ', hmaj', hv'⟩ := h.elected t c hl
  obtain ⟨r, hr, hr'⟩ := majority_inter hQ hQ' hmaj hmaj'
  obtain ⟨b, hb, hbv, hbt, hbc⟩ := hv r hr
  obtain ⟨b', hb', hbv', hbt', hbc', -⟩ := hv' r hr'
  rw [← hbc, ← hbc']
  exact (h.once b hb b' hb' (hbv.trans hbv'.symm) (hbt.trans hbt'.symm)).symm

/-- **Leader completeness.**  What a majority acknowledged in its last entry's term is part of
the start of every later term that has a leader. -/
theorem leader_completeness (hc : Coherent term S) (he : Elections term voters S)
    (hC : Committed term voters S C) :
    ∀ t, lastTerm term C < t → S.lead t ≠ none → C <+: S.start t := by
  intro t
  -- by strong induction on the term: a bypass would be an earlier exception
  induction t using Nat.strong_induction_on with
  | _ t ih =>
    intro hlt hled
    obtain ⟨c, hl⟩ := Option.ne_none_iff_exists'.mp hled
    obtain ⟨Q, hQ, hmaj, hQb⟩ := he.elected t c hl
    obtain ⟨hne, Q', hQ', hmaj', hQa⟩ := hC
    obtain ⟨r, hr, hr'⟩ := majority_inter hQ hQ' hmaj hmaj'
    obtain ⟨b, hb, rfl, rfl, -, hearly, hup⟩ := hQb r hr
    have ih' : ∀ t', lastTerm term C < t' → t' < b.term → S.lead t' ≠ none → C <+: S.start t' :=
      fun t' h₁ h₂ h₃ => ih t' h₂ h₁ h₃
    rcases he.keptVote b hb hearly C (hQa _ hr') hlt with hkept | ⟨t', h₁, h₂, h₃, h₄⟩
    · exact hc.contains_of_upToDate hne (he.builtVote b hb)
        ((hc.lines b.term).of_initial (hc.startPrefix _)) (hc.startLow _) hkept hup ih'
    · exact absurd (ih' t' h₁ h₂ h₃) h₄

theorem Committed.prefix_line (hc : Coherent term S) (hC : Committed term voters S C) :
    C <+: S.line (lastTerm term C) := by
  obtain ⟨_, Q, hQ, hmaj, hQa⟩ := hC
  obtain ⟨r, hr, -⟩ := majority_inter hQ hQ hmaj hmaj
  exact hc.prefix_line (hQa r hr)

/-- What is decided is part of the line of every leader from its term on. -/
theorem Secured.prefix_line (hc : Coherent term S) (he : Elections term voters S)
    (hX : Secured term voters S t X) (hled : S.lead t ≠ none) : X <+: S.line t := by
  rcases hX with rfl | ⟨C, hC, hle, hX⟩
  · exact List.nil_prefix
  · rcases Nat.lt_or_eq_of_le hle with hlt | heq
    · exact hX.trans ((leader_completeness hc he hC t hlt hled).trans (hc.startPrefix t))
    · exact hX.trans (heq ▸ hC.prefix_line hc)

/-- **Decisions agree**: of two decided prefixes one contains the other. -/
theorem Secured.comparable (hc : Coherent term S) (he : Elections term voters S) {t' : ℕ}
    {Y : List α} (hX : Secured term voters S t X) (hY : Secured term voters S t' Y) :
    X <+: Y ∨ Y <+: X := by
  rcases hX with rfl | ⟨C, hC, -, hX⟩
  · exact Or.inl List.nil_prefix
  rcases hY with rfl | ⟨D, hD, -, hY⟩
  · exact Or.inr List.nil_prefix
  -- both lie on the line of the later of the two terms
  have hline : ∀ {C D : List α}, Committed term voters S C → Committed term voters S D →
      lastTerm term C ≤ lastTerm term D → C <+: S.line (lastTerm term D) := by
    intro C D hC hD hle
    have hled := hc.led (hD.prefix_line hc) hD.1
    have hCs : Secured term voters S (lastTerm term D) C :=
      Or.inr ⟨C, hC, hle, List.prefix_rfl⟩
    exact hCs.prefix_line hc he hled
  rcases Nat.le_total (lastTerm term C) (lastTerm term D) with hle | hle
  · exact LeaderLog.comparable (hX.trans (hline hC hD hle)) (hY.trans (hD.prefix_line hc))
  · exact LeaderLog.comparable (hX.trans (hC.prefix_line hc)) (hY.trans (hline hD hC hle))

end Completeness

/-! ## 6. What a move leaves in place

A message tells what its sender saw when it was sent.  It stays true because all that is on record
only grows. -/

section Growth

variable {R α : Type} {term : α → ℕ} {S S' S'' : State R α}

/-- Terms go up, lines grow, and what is on record stays there. -/
structure Grows (S S' : State R α) : Prop where
  cur : ∀ r, S.cur r ≤ S'.cur r
  line : ∀ t, S.line t <+: S'.line t
  lead : ∀ t c, S.lead t = some c → S'.lead t = some c
  acks : ∀ x ∈ S.acks, x ∈ S'.acks
  ballots : ∀ b ∈ S.ballots, b ∈ S'.ballots

theorem Grows.refl (S : State R α) : Grows S S where
  cur := fun _ => le_refl _
  line := fun _ => List.prefix_rfl
  lead := fun _ _ h => h
  acks := fun _ h => h
  ballots := fun _ h => h

theorem Grows.trans (h : Grows S S') (h' : Grows S' S'') : Grows S S'' where
  cur := fun r => (h.cur r).trans (h'.cur r)
  line := fun t => (h.line t).trans (h'.line t)
  lead := fun t c hl => h'.lead t c (h.lead t c hl)
  acks := fun x hx => h'.acks x (h.acks x hx)
  ballots := fun b hb => h'.ballots b (h.ballots b hb)

theorem Grows.vote (S : State R α) (r c : R) : Grows S (S.vote r c) :=
  { Grows.refl S with ballots := fun _ hb => List.mem_cons_of_mem _ hb }

variable [DecidableEq R]

theorem Grows.raise {r : R} {t : ℕ} (ht : S.cur r ≤ t) : Grows S (S.raise r t) :=
  { Grows.refl S with
    cur := fun x => by
      by_cases hx : x = r
      · subst hx
        simpa [State.raise] using ht
      · simp [State.raise, hx] }

theorem Grows.extend {c : R} (e : α) (hline : S.line (S.cur c) <+: S.log c) :
    Grows S (S.extend c e) :=
  { Grows.refl S with
    line := fun t => by
      by_cases ht : t = S.cur c
      · subst ht
        simpa [State.extend] using hline.trans (List.prefix_append _ _)
      · simp [State.extend, ht]
    acks := fun _ hx => List.mem_cons_of_mem _ hx }

theorem Grows.elect {c : R} (e : α) (hlead : S.lead (S.cur c) = none)
    (hnil : S.line (S.cur c) = []) : Grows S (S.elect c e) :=
  { Grows.refl S with
    line := fun t => by
      by_cases ht : t = S.cur c
      · subst ht
        simp [State.elect, hnil]
      · simp [State.elect, ht]
    lead := fun t x hl => by
      have ht : t ≠ S.cur c := fun heq => by
        rw [heq, hlead] at hl
        cases hl
      simpa [State.elect, ht] using hl
    acks := fun _ hx => List.mem_cons_of_mem _ hx }

theorem Grows.accept (S : State R α) (r : R) (P : List α) : Grows S (S.accept term r P) :=
  { Grows.refl S with
    acks := fun x hx => by
      unfold State.accept
      split
      · exact List.mem_cons_of_mem _ hx
      · exact hx }

end Growth

end Cachey.LeaderLog
