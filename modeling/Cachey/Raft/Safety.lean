/-
# Safety of a cluster whose requests are copies

A cluster whose voters are fixed and whose servers do not crash: elections, proposals,
replication, compaction, snapshots and reads in any interleaving, requests lost, delayed,
reordered and repeated, durable writes failing at will.  An AppendEntries carries the entries its
sender's log had when the lock was released: whether the transport really sends those is the
subject of `Sharing`, which takes the results on logs from here.

The invariant holds along every run (`Inv.run`).  From it:

* entries applied at one index are equal on all servers, commit index and apply position never go
  back, and `HandleAppendEntries` never cuts the log at or below the commit index, so that its
  roll-back never happens (`calm_agreement`);
* no term ever has two leaders (`election_safety`), which no entry of a log has a part in;
* logs that agree in the term at an index agree up to it, above both compaction bases, and in the
  term at a base (`calm_matching`);
* a leader's log holds what was committed in its term or before (`calm_leader_holds`).
-/
import Cachey.Raft.Steps

namespace Cachey.Raft

variable {σ : Type} {K : Cluster σ} {S : Abstract} {s s' : ClusterState σ} {E : Env σ} {i k : ℕ}
  {p q : String} {l l' : Log} {F F' : List Entry}

/-! ## 1. Runs without crashes and membership changes -/

/-- The machine of a cluster with fixed voters and without crashes. -/
def ClusterState.calm (E : Env σ) (K : Cluster σ) : Machine (ClusterState σ) Label :=
  (ClusterState.machine E K).restrict fun _ l => l.crash = false ∧ l.action.settled = true

instance (E : Env σ) (K : Cluster σ) (s : ClusterState σ) (l : Label) :
    Decidable ((ClusterState.calm E K).enabled s l) :=
  inferInstanceAs (Decidable (s.Enabled E K l ∧ _))

theorem actor_arm (s : ClusterState σ) (l : Label) (a : Action) :
    (s.arm l).actor a = s.actor a := by
  cases a <;> rfl

theorem possible_arm (s : ClusterState σ) (l : Label) (a : Action) :
    (s.arm l).possible a = s.possible a ∧ (s.arm l).panics a = s.panics a := by
  have hnode : ∀ q, ((s.arm l).node q).role = (s.node q).role ∧
      ((s.arm l).node q).lastApplied = (s.node q).lastApplied ∧
      ((s.arm l).node q).commitIndex = (s.node q).commitIndex ∧
      ((s.arm l).node q).noopIndex = (s.node q).noopIndex ∧
      ((s.arm l).node q).log = (s.node q).log ∧
      ((s.arm l).node q).nextIndexOf = (s.node q).nextIndexOf := by
    intro q
    obtain ⟨_, _, hq⟩ := arm_node s l q
    rw [hq]
    exact ⟨rfl, rfl, rfl, rfl, rfl, rfl⟩
  constructor
  · cases a <;> simp only [ClusterState.possible, hnode] <;> rfl
  · cases a <;> simp only [ClusterState.panics, hnode]
    rfl

theorem Inv.step {l : Label} (h : Inv K s S) (hK : K.Fixed) (hl : (ClusterState.calm E K).enabled s l) :
    Kept K s S (s.act E K l) := by
  obtain ⟨hpossible, hpanics⟩ := possible_arm s l l.action
  obtain ⟨⟨ha, hp, hcase⟩, hcrash, hset⟩ := hl
  have hno : s.panics l.action = false := by
    rcases hcase with ⟨hc, -⟩ | ⟨-, hno⟩
    · exact absurd (hcrash.symm.trans hc) (by decide)
    · exact hno
  unfold ClusterState.act
  rw [if_neg (by rw [hcrash]; decide)]
  obtain ⟨S', hinv, hgrow, hcommit⟩ := h.arm.perform (E := E) (actor_arm s l l.action ▸ hK _ ha)
    (hpossible.trans hp) (hpanics.trans hno) hset
  refine ⟨S', hinv, hgrow, fun r => ?_⟩
  obtain ⟨_, _, hr⟩ := arm_node s l r
  have := hcommit r
  rwa [hr] at this

theorem Inv.run (h : Inv K s S) (hK : K.Fixed) (hrun : (ClusterState.calm E K).Steps s s') :
    Kept K s S s' := by
  refine hrun.invariant (P := Kept K s S) (fun s₁ l hinv hl => ?_) (Kept.still h rfl)
  obtain ⟨S₁, hinv, hgrow, hcommit⟩ := hinv
  obtain ⟨S₂, hinv', hgrow', hcommit'⟩ := hinv.step hK hl
  exact ⟨S₂, hinv', hgrow.trans hgrow', fun r => (hcommit r).trans (hcommit' r)⟩

/-! ## 2. A replicated write -/

def trio : Cluster Unit where
  servers := ["a", "b", "c"]
  voters := ["a", "b", "c"]
  nodup := by decide
  named := by decide
  fsm := ()
  threshold := fun _ => 0
  logStore := fun _ => false
  snapshotStore := fun _ => false
  metaStore := fun _ => false
  bound := fun r => r

theorem trio_fixed : trio.Fixed := fun _ hr => hr

def Move.act {σ : Type} (a : Action) (_ : ClusterState σ) : Label := { action := a }

/-- `a` is elected by `b`, and its no-op reaches `b`. -/
def electA : List (ClusterState Unit → Label) :=
  [.timeout "a", .campaign "a", .serve 0, .reply 0 0, .promote 0, .broadcast 0, .replicate 0,
    .serve 2, .reply 2 0].map Move.act

/-- A write reaches `b`, and so does its commit. -/
def writeA : List (ClusterState Unit → Label) :=
  [.propose "a" (some [7]), .broadcast 0, .replicate 1, .serve 3, .reply 3 0, .tick "a",
    .broadcast 0, .replicate 2, .serve 4].map Move.act

/-- The cluster after the election and after the write. -/
def afterElection : ClusterState Unit := (ClusterState.calm plainEnv trio).play trio.start electA

def afterWrite : ClusterState Unit := (ClusterState.calm plainEnv trio).play afterElection writeA

/-! ## 3. Agreement

Two applied entries are entries of two secured prefixes, and of two secured prefixes one contains
the other: that is leader completeness, used twice. -/

theorem getElem?_of_initial {X Y : List Entry} {e : Entry} (h : X <+: Y) (he : X[i]? = some e) :
    Y[i]? = some e := by
  obtain ⟨rest, rfl⟩ := h
  rw [List.getElem?_append_left (List.getElem?_eq_some_iff.mp he).1]
  exact he

theorem Inv.applied_eq {e e' : Entry} (h : Inv K s S) (he : (i, e) ∈ (s.node p).applied)
    (he' : (i, e') ∈ (s.node q).applied) : e = e' := by
  obtain ⟨-, t, X, hX, hget⟩ := (h.nodes p).applied _ he
  obtain ⟨-, t', Y, hY, hget'⟩ := (h.nodes q).applied _ he'
  rcases hX.comparable h.coherent h.elected hY with hpre | hpre
  · exact Option.some.inj ((getElem?_of_initial hpre hget).symm.trans hget')
  · exact Option.some.inj (hget.symm.trans (getElem?_of_initial hpre hget'))

/-- In every run, from every state of it to every later one: entries applied at one index are
equal on all servers; commit index and apply position do not decrease; and every cut
`HandleAppendEntries` has made in a log was above the commit index. -/
theorem calm_agreement (hK : K.Fixed) (h : (ClusterState.calm E K).Steps K.start s)
    (h' : (ClusterState.calm E K).Steps s s') :
    (∀ p ∈ K.servers, ∀ q ∈ K.servers, ∀ i e e', (i, e) ∈ (s'.node p).applied →
      (i, e') ∈ (s'.node q).applied → e = e') ∧
    (∀ r ∈ K.servers, (s.node r).commitIndex ≤ (s'.node r).commitIndex ∧
      (s.node r).lastApplied ≤ (s'.node r).lastApplied) ∧
    ∀ r ∈ K.servers, ∀ cut ∈ (s'.node r).truncated, cut.2 < cut.1 := by
  obtain ⟨S, hinv, -⟩ := Inv.start.run hK h
  obtain ⟨S', hinv', -, hcommit⟩ := hinv.run hK h'
  refine ⟨fun p _ q _ i e e' he he' => hinv'.applied_eq he he', fun r _ => ?_,
    fun r _ => (hinv'.nodes r).truncated⟩
  rw [(hinv.nodes r).settled, (hinv'.nodes r).settled]
  exact ⟨hcommit r, hcommit r⟩

/-! ## 4. One leader a term -/

/-- **Election safety.**  In every run, two servers that are ever leader in one term, at the same
time or one after the other, are the same server: a term has one leader in the abstract, and who
has led it stays on record. -/
theorem election_safety (E : Env σ) (K : Cluster σ) (hK : K.Fixed) {s s' : ClusterState σ}
    (h : (ClusterState.calm E K).Steps K.start s) (h' : (ClusterState.calm E K).Steps s s')
    {p q : String} (hp : (s.node p).role = .leader) (hq : (s'.node q).role = .leader)
    (hterm : (s.node p).currentTerm = (s'.node q).currentTerm) : p = q := by
  obtain ⟨S, hinv, -⟩ := Inv.start.run hK h
  obtain ⟨S', hinv', hgrow, -⟩ := hinv.run hK h'
  have hlead := hgrow.lead _ _ ((hinv.nodes p).leader hp).leads
  rw [← (hinv.nodes p).term, hterm, (hinv'.nodes q).term] at hlead
  exact Option.some.inj (hlead.symm.trans ((hinv'.nodes q).leader hq).leads)

/-- `a` leads term 1 when the write starts and when it is done. -/
theorem election_safety_replicatedWrite :
    ((afterElection.node "a").role = .leader ∧ (afterWrite.node "a").role = .leader ∧
      (afterElection.node "a").currentTerm = (afterWrite.node "a").currentTerm) ∧ "a" = "a" :=
  ⟨by decide +kernel,
    election_safety plainEnv trio trio_fixed
      (Machine.steps_of_plays electA trio.start (by decide +kernel))
      (Machine.steps_of_plays writeA afterElection (by decide +kernel))
      (p := "a") (q := "a") (by decide +kernel) (by decide +kernel) (by decide +kernel)⟩

/-! ## 5. Log matching

In the abstract, two logs with the same term at an index are the same up to there.  The nodes hold
less: what lies at or below a base is gone but for the term of the base itself.  So the statement is
about the entries above BOTH bases, and about the base terms. -/

/-- The logs of two servers that carry the same term at an index both hold are the same log up to
there, compacted or not. -/
theorem Inv.take_eq_of_term (h : Inv K s S) (hp : (s.node p).log.base ≤ i)
    (hq : (s.node q).log.base ≤ i) (hip : i ≤ (s.node p).log.lastIndex)
    (hiq : i ≤ (s.node q).log.lastIndex)
    (hterm : (s.node p).log.termAt i = (s.node q).log.termAt i) :
    (S.log p).take i = (S.log q).take i := by
  have hholds := (h.nodes p).sound.holds
  have hholds' := (h.nodes q).sound.holds
  rw [hholds.lastIndex] at hip
  rw [hholds'.lastIndex] at hiq
  rw [hholds.termAt hp hip, hholds'.termAt hq hiq] at hterm
  exact LeaderLog.matching (h.coherent.logs p) (h.coherent.logs q) (List.take_prefix _ _)
    (List.take_prefix _ _) (by rw [List.length_take_of_le hip, List.length_take_of_le hiq]) hterm

/-- Where two logs are the same log, they hold the same entries above both bases. -/
theorem Log.Holds.entryAt_eq (h : l.Holds F) (h' : l'.Holds F')
    (htake : F.take i = F'.take i) (hi : i ≤ F.length) (hi' : i ≤ F'.length) (hlo : l.base < k)
    (hlo' : l'.base < k) (hk : k ≤ i) : l.entryAt k = l'.entryAt k := by
  have hget := congrArg (fun X => X[k - 1]?) htake
  simp only [List.getElem?_take, if_pos (show k - 1 < i by omega)] at hget
  rw [h.entryAt hlo (hk.trans hi), h'.entryAt hlo' (hk.trans hi')] at hget
  exact Option.some.inj hget

/-- ... and the term at a base is the term the other one has there. -/
theorem Log.Holds.termAt_eq (h : l.Holds F) (h' : l'.Holds F')
    (htake : F.take i = F'.take i) (hi : i ≤ F.length) (hi' : i ≤ F'.length) (hlo : l.base ≤ k)
    (hlo' : l'.base ≤ k) (hk : k ≤ i) : l.termAt k = l'.termAt k := by
  have htake' := congrArg (List.take k) htake
  rw [List.take_take, List.take_take, Nat.min_eq_left hk] at htake'
  rw [h.termAt hlo (hk.trans hi), h'.termAt hlo' (hk.trans hi'), htake']

/-- What a cluster with log matching has: if two logs carry the same term at an index at or above
both bases, their entries above both bases are identical up to that index, and the base term either
of them stores is the term the other one has there, if it still holds that index. -/
def ClusterState.Matching (s : ClusterState σ) : Prop :=
  ∀ (p q : String) (i : ℕ), (s.node p).log.base ≤ i → (s.node q).log.base ≤ i →
    i ≤ (s.node p).log.lastIndex → i ≤ (s.node q).log.lastIndex →
    (s.node p).log.termAt i = (s.node q).log.termAt i →
    (∀ k, max (s.node p).log.base (s.node q).log.base < k → k ≤ i →
      (s.node p).log.entryAt k = (s.node q).log.entryAt k) ∧
    ((s.node q).log.base ≤ (s.node p).log.base →
      (s.node p).log.termAt (s.node p).log.base = (s.node q).log.termAt (s.node p).log.base) ∧
    ((s.node p).log.base ≤ (s.node q).log.base →
      (s.node q).log.termAt (s.node q).log.base = (s.node p).log.termAt (s.node q).log.base)

theorem calm_matching (hK : K.Fixed) (h : (ClusterState.calm E K).Steps K.start s) :
    s.Matching := by
  intro p q i hp hq hip hiq hterm
  obtain ⟨S, hinv, -⟩ := Inv.start.run hK h
  have htake := hinv.take_eq_of_term hp hq hip hiq hterm
  have hholds := (hinv.nodes p).sound.holds
  have hholds' := (hinv.nodes q).sound.holds
  rw [hholds.lastIndex] at hip
  rw [hholds'.lastIndex] at hiq
  refine ⟨fun k hlo hk => ?_, fun hle => ?_, fun hle => ?_⟩
  · exact hholds.entryAt_eq hholds' htake hip hiq (lt_of_le_of_lt (le_max_left _ _) hlo)
      (lt_of_le_of_lt (le_max_right _ _) hlo) hk
  · exact hholds.termAt_eq hholds' htake hip hiq (le_refl _) hle hp
  · exact hholds'.termAt_eq hholds htake.symm hiq hip (le_refl _) hle hq

/-- A leader's log holds, above both bases, what a server of no later term has committed. -/
theorem calm_leader_holds (hK : K.Fixed) (h : (ClusterState.calm E K).Steps K.start s)
    (hp : (s.node p).role = .leader)
    (hterm : (s.node q).currentTerm ≤ (s.node p).currentTerm) (hk : k ≤ (s.node q).commitIndex) :
    k ≤ (s.node p).log.lastIndex ∧ (max (s.node p).log.base (s.node q).log.base < k →
      (s.node p).log.entryAt k = (s.node q).log.entryAt k) := by
  obtain ⟨S, hinv, -⟩ := Inv.start.run hK h
  have hlead := ((hinv.nodes p).leader hp).leads
  have hholds := (hinv.nodes p).sound.holds
  have hlen := (hinv.nodes q).sound.commit_le
  rw [(hinv.nodes p).term, (hinv.nodes q).term] at hterm
  -- what is secured by a term is on the line of its leader
  have hpre := ((hinv.nodes q).secured.mono hterm fun _ => id).prefix_line hinv.coherent
    hinv.elected (by simp [hlead])
  rw [← (hinv.coherent.leader _ p hlead).2 rfl] at hpre
  have hle := hpre.length_le
  rw [List.prefix_iff_eq_take] at hpre
  rw [List.length_take_of_le hlen] at hpre hle
  exact ⟨hholds.lastIndex ▸ hk.trans hle, fun hlo => hholds.entryAt_eq
    (hinv.nodes q).sound.holds hpre.symm hle hlen (by omega) (by omega) hk⟩

end Cachey.Raft
