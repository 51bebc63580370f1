/-
# What a critical section does to the log

Each function of the node is described once, against the FULL log `F` that the compacted log
stands for (`Log.Holds`), as long as no entry of it is a configuration.  Two relations carry the
descriptions:

* `Sound F n` -- the log stands for `F`, and base, apply position and commit index are in order;
* `Applies F n n'` -- `n'` is `n` after applying committed entries: the log may have been
  compacted but stands for the same `F`, the journal has grown by entries of `F`, and nothing else
  has changed but the state machine and its snapshot.

An AppendEntries that passes the checks turns `F` into `accepted F P`, where `P` is the log of
the leader that sent it; and so does a snapshot of `P`.  What a configuration entry does, and the
outcomes of each handler, are told for any log.
-/
import Cachey.Raft.System

namespace Cachey.Raft

open LeaderLog.State (accepted)

namespace Node

variable {σ : Type} {F P : List Entry} {E : Env σ} {n n' n'' : Node σ} {es : List Entry} {l : Log}
  {e : Entry}

/-! ## 1. Soundness and frames -/

/-- The log stands for `F`, which has no configuration in it, and the indices are in order. -/
structure Sound (F : List Entry) (n : Node σ) : Prop where
  holds : n.log.Holds F
  base_le : n.log.base ≤ n.lastApplied
  applied_le : n.lastApplied ≤ n.commitIndex
  commit_le : n.commitIndex ≤ F.length
  plain : ∀ e ∈ F, e.config = none

/-- A snapshot of `F`, at or below `bound`. -/
def SnapshotOf (F : List Entry) (bound : ℕ) (s : Snapshot) : Prop :=
  s.lastIncludedIndex ≤ bound ∧ s.lastIncludedTerm = endTerm (F.take s.lastIncludedIndex)

/-- `n'` is `n` after applying committed entries of `F`. -/
structure Applies (F : List Entry) (n n' : Node σ) : Prop where
  only : ∃ log last applied snapshot saves fsm, n' = { n with
    log := log, lastApplied := last, applied := applied, snapshot := snapshot, saves := saves
    fsm := fsm }
  sound : Sound F n'
  mono : n.lastApplied ≤ n'.lastApplied
  base : n.log.base ≤ n'.log.base
  journal : ∃ new, n'.applied = new ++ n.applied ∧
    ∀ x ∈ new, 0 < x.1 ∧ x.1 ≤ n'.lastApplied ∧ F[x.1 - 1]? = some x.2
  saved : n'.snapshot = n.snapshot ∨ n.snapshotStore = true ∧
    ∃ s, n'.snapshot = some s ∧ SnapshotOf F n'.log.base s

theorem Applies.refl (h : Sound F n) : Applies F n n where
  only := ⟨_, _, _, _, _, _, rfl⟩
  sound := h
  mono := le_rfl
  base := le_rfl
  journal := ⟨[], rfl, fun _ hx => absurd hx List.not_mem_nil⟩
  saved := Or.inl rfl

theorem Applies.trans (h : Applies F n n') (h' : Applies F n' n'') : Applies F n n'' where
  only := by
    obtain ⟨_, _, _, _, _, _, rfl⟩ := h.only
    obtain ⟨_, _, _, _, _, _, rfl⟩ := h'.only
    exact ⟨_, _, _, _, _, _, rfl⟩
  sound := h'.sound
  mono := h.mono.trans h'.mono
  base := h.base.trans h'.base
  journal := by
    obtain ⟨new, heq, hnew⟩ := h.journal
    obtain ⟨new', heq', hnew'⟩ := h'.journal
    refine ⟨new' ++ new, by rw [heq', heq, List.append_assoc], fun x hx => ?_⟩
    rcases List.mem_append.mp hx with hx | hx
    · exact hnew' x hx
    · obtain ⟨h₁, h₂, h₃⟩ := hnew x hx
      exact ⟨h₁, h₂.trans h'.mono, h₃⟩
  saved := by
    have hstore : n'.snapshotStore = n.snapshotStore := by
      obtain ⟨_, _, _, _, _, _, rfl⟩ := h.only
      rfl
    rcases h'.saved with heq | ⟨hs', hs⟩
    · rcases h.saved with heq₀ | ⟨hs', s, hs, hle, ht⟩
      · exact Or.inl (heq.trans heq₀)
      · exact Or.inr ⟨hs', s, heq.trans hs, hle.trans h'.base, ht⟩
    · exact Or.inr ⟨hstore.symm.trans hs', hs⟩

/-! ## 2. Applying -/

/-- Compaction keeps the log or cuts it at the apply position. -/
theorem maybeCompactLocked_cases (E : Env σ) (n : Node σ) :
    (∃ saves, n.maybeCompactLocked E = { n with saves := saves }) ∨
    n.log.base < n.lastApplied ∧ ∃ saves snapshot,
      n.maybeCompactLocked E = { n with
        saves := saves
        snapshot := snapshot
        log := n.log.compact n.lastApplied (n.log.termAt n.lastApplied) } ∧
      (snapshot = n.snapshot ∧ n.snapshotStore = false ∨
        n.snapshotStore = true ∧ ∃ data, E.take n.fsm = some data ∧ snapshot = some
          { lastIncludedIndex := n.lastApplied
            lastIncludedTerm := n.log.termAt n.lastApplied, data := data }) := by
  unfold maybeCompactLocked
  split
  · exact Or.inl ⟨n.saves, rfl⟩
  split
  · exact Or.inl ⟨n.saves, rfl⟩
  dsimp only
  split
  · exact Or.inl ⟨n.saves, rfl⟩
  next hbase =>
  have hlt : n.log.base < n.lastApplied := not_le.mp hbase
  split
  · exact Or.inl ⟨n.saves, rfl⟩
  next data htake =>
  by_cases hstore : n.snapshotStore = true
  · rw [if_pos hstore]
    unfold saveSnapshot
    by_cases hok : n.saves.headD true = true
    · simp only [hok, if_true]
      exact Or.inr ⟨hlt, _, _, rfl, Or.inr ⟨hstore, data, htake, rfl⟩⟩
    · simp only [hok]
      exact Or.inl ⟨n.saves.tail, rfl⟩
  · rw [if_neg hstore]
    exact Or.inr ⟨hlt, n.saves, n.snapshot, rfl, Or.inl ⟨rfl, Bool.not_eq_true _ ▸ hstore⟩⟩

theorem Applies.maybeCompactLocked (h : Sound F n) : Applies F n (n.maybeCompactLocked E) := by
  have hle : n.lastApplied ≤ F.length := h.applied_le.trans h.commit_le
  have hterm := h.holds.termAt h.base_le hle
  rcases maybeCompactLocked_cases E n with ⟨saves, heq⟩ | ⟨hlt, saves, snapshot, heq, hsnap⟩
  · rw [heq]
    exact { Applies.refl h with only := ⟨_, _, _, _, _, _, rfl⟩, sound := { h with } }
  · rw [heq]
    have hbase : (n.log.compact n.lastApplied (n.log.termAt n.lastApplied)).base =
        n.lastApplied := by
      unfold Log.compact
      split <;> rfl
    refine { Applies.refl h with
      only := ⟨_, _, _, _, _, _, rfl⟩, sound := ?_, base := hbase.symm ▸ hlt.le, saved := ?_ }
    · exact ⟨h.holds.compact h.base_le hle hterm, le_of_eq hbase, h.applied_le, h.commit_le, h.plain⟩
    · rcases hsnap with ⟨rfl, -⟩ | ⟨hstore, data, -, rfl⟩
      · exact Or.inl rfl
      · exact Or.inr ⟨hstore, _, rfl, hbase.ge, hterm⟩

theorem reconcile_cases (cfg : Configuration) (oldPeers : List String) (n : Node σ) :
    ∃ next matched, n.reconcile cfg oldPeers = { n with nextIndex := next, matchIndex := matched } ∧
      (∀ p m, matched.lookup p = some m → m = 0 ∨ n.matchIndex.lookup p = some m) ∧
      ∀ p i, next.lookup p = some i → i = n.log.lastIndex + 1 ∨ n.nextIndex.lookup p = some i := by
  -- both maps get one value for the new keys and lose the old ones
  have hmap : ∀ (m : GoMap String ℕ) (v : ℕ) (fresh gone : List String) (p : String) (i : ℕ),
      (gone.foldl (fun m id => m.erase id)
        (fresh.foldl (fun m id => m.insert id v) m)).lookup p = some i →
      i = v ∨ m.lookup p = some i := by
    intro m v fresh gone p i hi
    rw [GoMap.lookup_foldl_erase] at hi
    split at hi
    · cases hi
    · rw [GoMap.lookup_foldl_insert] at hi
      split at hi
      · exact Or.inl (Option.some.inj hi).symm
      · exact Or.inr hi
  exact ⟨_, _, rfl, hmap _ _ _ _, hmap _ _ _ _⟩

theorem registerPeers_eq (addrs : GoMap String String) (n : Node σ) :
    ∃ known, n.registerPeers addrs = { n with addrs := known } := ⟨_, rfl⟩

/-- The meta is saved if there is a store for it and the write succeeds. -/
theorem saveMeta_eq (m : CommittedMeta) (n : Node σ) :
    ∃ saves, (if n.metaStore = true then n.saveMeta m else n) = { n with
      saves := saves
      savedMeta := if n.metaStore && n.saves.headD true then some m else n.savedMeta } := by
  by_cases hmeta : n.metaStore = true
  · have hand : (n.metaStore && n.saves.headD true) = n.saves.headD true := by simp [hmeta]
    refine ⟨n.saves.tail, ?_⟩
    rw [if_pos hmeta, hand]
    unfold saveMeta
    split <;> rfl
  · have hand : (n.metaStore && n.saves.headD true) = false := by simp [hmeta]
    refine ⟨n.saves, ?_⟩
    rw [if_neg hmeta, hand]
    rfl

/-- A configuration changes the membership, the addresses and the saved meta, and it resets
replication indices or forgets them. -/
theorem applyConfigLocked_cases (cfg : Configuration) (idx : ℕ) (n : Node σ) :
    ∃ addrs next matched pending saves,
      n.applyConfigLocked cfg idx = { n with
        addrs := addrs, peers := cfg.voters.filter fun id => id ≠ n.id
        removed := n.id ∉ cfg.voters
        joining := [], nextIndex := next, matchIndex := matched, pendingStepDown := pending
        savedMeta := if n.metaStore && n.saves.headD true then
          some { voters := cfg.voters, addrs := cfg.addrs, index := idx } else n.savedMeta
        saves := saves } ∧
      (∀ p m, matched.lookup p = some m → m = 0 ∨ n.matchIndex.lookup p = some m) ∧
      ∀ p i, next.lookup p = some i → i = n.log.lastIndex + 1 ∨ n.nextIndex.lookup p = some i := by
  unfold applyConfigLocked
  obtain ⟨known, hreg⟩ := registerPeers_eq cfg.addrs n
  rw [hreg]
  dsimp only
  -- the leader's bookkeeping
  generalize hbook : (if n.role = .leader then _ else _ : Node σ) = n₁
  obtain ⟨next, matched, hn₁, hmatched, hnext⟩ : ∃ next matched, n₁ = { n with
      addrs := known
      peers := cfg.voters.filter fun id => id ≠ n.id
      removed := n.id ∉ cfg.voters
      nextIndex := next, matchIndex := matched } ∧
      (∀ p m, matched.lookup p = some m → m = 0 ∨ n.matchIndex.lookup p = some m) ∧
      ∀ p i, next.lookup p = some i → i = n.log.lastIndex + 1 ∨ n.nextIndex.lookup p = some i := by
    rw [← hbook]
    split
    · obtain ⟨next, matched, heq, hm⟩ := reconcile_cases cfg n.peers { n with
        addrs := known
        peers := cfg.voters.filter fun id => id ≠ n.id
        removed := n.id ∉ cfg.voters }
      exact ⟨next, matched, heq, hm⟩
    · exact ⟨_, _, rfl, fun _ _ hm => Or.inr hm, fun _ _ hi => Or.inr hi⟩
  subst hn₁
  have hdrop : ∀ (ids : List String) (m : GoMap String ℕ) (P : String → ℕ → Prop),
      (∀ p i, m.lookup p = some i → P p i) →
      ∀ p i, (ids.foldl (fun m id => m.erase id) m).lookup p = some i → P p i := by
    intro ids m P hP p i hi
    rw [GoMap.lookup_foldl_erase] at hi
    split at hi
    · cases hi
    · exact hP p i hi
  -- the deferred step-down and the saved meta
  obtain ⟨saves, heq⟩ := saveMeta_eq (σ := σ)
    { voters := cfg.voters, addrs := cfg.addrs, index := idx } _
  rw [heq]
  split
  · exact ⟨_, _, _, _, _, rfl, hdrop _ _ _ hmatched, hdrop _ _ _ hnext⟩
  · exact ⟨_, _, _, _, _, rfl, hdrop _ _ _ hmatched, hdrop _ _ _ hnext⟩

theorem Applies.applyNext (h : Sound F n) (hlt : n.lastApplied < n.commitIndex) :
    Applies F n (n.applyNext E) ∧ (n.applyNext E).lastApplied = n.lastApplied + 1 := by
  have hentry := h.holds.entryAt (i := n.lastApplied + 1) (Nat.lt_succ_of_le h.base_le)
    (hlt.trans_le h.commit_le)
  unfold Node.applyNext
  dsimp only
  generalize n.log.entryAt (n.lastApplied + 1) = e at hentry
  rw [h.plain e (List.mem_of_getElem? hentry)]
  have hnext : Applies F n { n with
      lastApplied := n.lastApplied + 1, applied := (n.lastApplied + 1, e) :: n.applied } :=
    { Applies.refl h with
      only := ⟨_, _, _, _, _, _, rfl⟩
      sound := ⟨h.holds, h.base_le.trans (Nat.le_succ _), hlt, h.commit_le, h.plain⟩
      mono := Nat.le_succ _
      saved := Or.inl rfl
      journal := ⟨[(n.lastApplied + 1, e)], rfl, fun x hx => by
        rw [List.mem_singleton.mp hx]
        exact ⟨Nat.succ_pos _, le_rfl, hentry⟩⟩ }
  split
  next heq => cases heq
  · have hfsm : Sound F { n with
        lastApplied := n.lastApplied + 1
        applied := (n.lastApplied + 1, e) :: n.applied
        fsm := E.apply n.fsm e } := { hnext.sound with }
    have hcompact := Applies.maybeCompactLocked (E := E) hfsm
    refine ⟨hnext.trans { hcompact with only := ?_ }, ?_⟩
    · obtain ⟨_, _, _, _, _, _, heq⟩ := hcompact.only
      exact ⟨_, _, _, _, _, _, heq⟩
    · rcases maybeCompactLocked_cases E _ with ⟨_, heq⟩ | ⟨_, _, _, heq, _⟩ <;> rw [heq]
  · exact ⟨hnext, rfl⟩

theorem Applies.applyLoop (E : Env σ) : ∀ (turns : ℕ) {n : Node σ}, Sound F n →
    n.lastApplied + turns ≤ n.commitIndex →
    Applies F n (Node.applyLoop E turns n) ∧
      (Node.applyLoop E turns n).lastApplied = n.lastApplied + turns
  | 0, n, h, _ => ⟨Applies.refl h, rfl⟩
  | turns + 1, n, h, hle => by
    obtain ⟨hnext, hlast⟩ := Applies.applyNext (E := E) h (by omega)
    have hcommit : (n.applyNext E).commitIndex = n.commitIndex := by
      obtain ⟨_, _, _, _, _, _, heq⟩ := hnext.only
      rw [heq]
    obtain ⟨hloop, hend⟩ := Applies.applyLoop E turns hnext.sound (by omega)
    refine ⟨hnext.trans hloop, ?_⟩
    change (Node.applyLoop E turns _).lastApplied = _
    omega

theorem Applies.applyCommittedLocked (h : Sound F n) :
    Applies F n (n.applyCommittedLocked E) ∧
      (n.applyCommittedLocked E).lastApplied = n.commitIndex := by
  have hle := h.applied_le
  obtain ⟨happ, hlast⟩ := Applies.applyLoop E (n.commitIndex - n.lastApplied) h (by omega)
  exact ⟨happ, hlast.trans (by omega)⟩

/-! ## 3. Committing -/

/-- The leader counts a majority for an entry of its term. -/
def Quorate (n : Node σ) (i : ℕ) : Prop :=
  n.log.termAt i = n.currentTerm ∧ n.majorityLocked ≤ n.countAt i

/-- The loop leaves the commit index or moves it to an entry of the leader's term that it counts a
majority for. -/
theorem commitLoop_cases : ∀ (turns idx : ℕ) (n : Node σ), ∃ commit,
    commitLoop turns idx n = { n with commitIndex := commit } ∧
    (commit = n.commitIndex ∨ idx ≤ commit ∧ commit < idx + turns ∧ n.Quorate commit)
  | 0, _, n => ⟨n.commitIndex, rfl, Or.inl rfl⟩
  | turns + 1, idx, n => by
    unfold commitLoop
    split
    · obtain ⟨commit, heq, hcommit⟩ := commitLoop_cases turns (idx + 1) n
      exact ⟨commit, heq, hcommit.imp_right fun ⟨hlo, hhi, hq⟩ => ⟨by omega, by omega, hq⟩⟩
    next hterm =>
    split
    next hcount =>
      obtain ⟨commit, heq, hcommit⟩ := commitLoop_cases turns (idx + 1) { n with commitIndex := idx }
      refine ⟨commit, heq, Or.inr ?_⟩
      rcases hcommit with rfl | ⟨hlo, hhi, hq⟩
      · exact ⟨le_rfl, Nat.lt_add_of_pos_right (Nat.succ_pos _), not_not.mp hterm, hcount⟩
      · exact ⟨by omega, by omega, hq⟩
    · exact ⟨n.commitIndex, rfl, Or.inl rfl⟩

/-- `updateCommitIndexLocked` keeps the commit index or moves it up to an entry of the leader's
term that it counts a majority for. -/
theorem updateCommitIndexLocked_cases (h : Sound F n) :
    ∃ commit, (commit = n.commitIndex ∨
        n.commitIndex < commit ∧ commit ≤ F.length ∧ n.Quorate commit) ∧
      Applies F { n with commitIndex := commit } (n.updateCommitIndexLocked E) ∧
      (n.updateCommitIndexLocked E).lastApplied = commit := by
  have hlast := h.holds.lastIndex
  have hcommit := h.commit_le
  have happ := h.applied_le
  obtain ⟨commit, heq, hcases⟩ :=
    commitLoop_cases (n.log.lastIndex - n.commitIndex) (n.commitIndex + 1) n
  unfold updateCommitIndexLocked
  rw [heq]
  have hsound : Sound F { n with commitIndex := commit } :=
    ⟨h.holds, h.base_le, by dsimp only; omega, by dsimp only; omega, h.plain⟩
  refine ⟨commit, hcases.imp_right fun ⟨hlo, hhi, hq⟩ => ⟨by omega, by omega, hq⟩, ?_⟩
  exact Applies.applyCommittedLocked hsound

/-! ## 4. Taking over a leader's log

The loop compares term by term, skips what it has, cuts at the first conflict and appends the rest.
That the result is `accepted F P` needs `AgreesByTerm`: without it an entry of the same term could
be skipped that is not the leader's. -/

theorem take_of_drop_cons {p : ℕ} (h : P.drop p = e :: es) :
    p < P.length ∧ P.take (p + 1) = P.take p ++ [e] ∧ P.drop (p + 1) = es := by
  have hlt : p < P.length := by
    by_contra hge
    rw [List.drop_eq_nil_of_le (not_lt.mp hge)] at h
    cases h
  rw [List.drop_eq_getElem_cons hlt] at h
  injection h with ha hl
  exact ⟨hlt, by rw [← ha, List.take_append_getElem hlt], hl⟩

open scoped Classical in
variable {F P : List Entry}

theorem accepted_of_initial (h : P <+: F) : accepted F P = F := if_pos h

open scoped Classical in
theorem accepted_of_not_initial (h : ¬ P <+: F) : accepted F P = P := if_neg h

/-- Logs that carry the same term at an index agree up to it. -/
def AgreesByTerm (F P : List Entry) : Prop :=
  ∀ i, i ≤ F.length → i ≤ P.length → endTerm (F.take i) = endTerm (P.take i) → F.take i = P.take i

/-- `n'` is `n` with the log of a leader, `P`, taken over: the indices are as before, or the log
was cut behind the first `q` entries, where the two logs part. -/
structure TakesOver (F P : List Entry) (n n' : Node σ) : Prop where
  only : ∃ log last commit cut,
    n' = { n with log := log, lastApplied := last, commitIndex := commit, truncated := cut }
  holds : n'.log.Holds (accepted F P)
  base : n'.log.base = n.log.base
  indices :
    (n'.lastApplied = n.lastApplied ∧ n'.commitIndex = n.commitIndex ∧
      n'.truncated = n.truncated ∧ F <+: accepted F P) ∨
    ∃ q, n.log.base ≤ q ∧ q < P.length ∧ F.take (q + 1) ≠ P.take (q + 1) ∧
      accepted F P = P ∧ n'.lastApplied = min n.lastApplied q ∧
      n'.commitIndex = min n.commitIndex q ∧ n'.truncated = (q + 1, n.commitIndex) :: n.truncated

theorem appendLoop_append : ∀ (es : List Entry) (p : ℕ) (n : Node σ),
    n.log.Holds (P.take p) → p ≤ P.length → es = P.drop p →
    ∃ log : Log, appendLoop (p + 1) es n = { n with log := log } ∧ log.Holds P ∧
      log.base = n.log.base
  | [], p, n, hn, hp, hes => by
    have hP : P.take p = P := List.take_of_length_le (List.drop_eq_nil_iff.mp hes.symm)
    exact ⟨n.log, rfl, hP ▸ hn, rfl⟩
  | e :: es, p, n, hn, hp, hes => by
    obtain ⟨hlt, htake, hdrop⟩ := take_of_drop_cons hes.symm
    have hend : n.log.lastIndex = p := by
      rw [hn.lastIndex, List.length_take]
      omega
    obtain ⟨log, heq, hh, hb⟩ := appendLoop_append es (p + 1) { n with log := n.log.append e }
      (htake ▸ hn.append e) hlt hdrop.symm
    refine ⟨log, ?_, hh, hb⟩
    unfold appendLoop
    rw [if_neg (by omega), heq]

theorem overwrite_eq (idx : ℕ) (e : Entry) (n : Node σ) (hidx : 0 < idx) :
    n.overwrite idx e = { n with
      log := (n.log.truncate idx).append e
      lastApplied := min n.lastApplied (idx - 1)
      commitIndex := min n.commitIndex (idx - 1)
      truncated := (idx, n.commitIndex) :: n.truncated } := by
  unfold overwrite
  dsimp only
  by_cases h₁ : idx ≤ n.lastApplied <;> by_cases h₂ : idx ≤ n.commitIndex
  · have e₁ : min n.lastApplied (idx - 1) = idx - 1 := by omega
    have e₂ : min n.commitIndex (idx - 1) = idx - 1 := by omega
    rw [if_pos h₁, if_pos h₂, e₁, e₂]
  · have e₁ : min n.lastApplied (idx - 1) = idx - 1 := by omega
    have e₂ : min n.commitIndex (idx - 1) = n.commitIndex := by omega
    rw [if_pos h₁, if_neg h₂, e₁, e₂]
  · have e₁ : min n.lastApplied (idx - 1) = n.lastApplied := by omega
    have e₂ : min n.commitIndex (idx - 1) = idx - 1 := by omega
    rw [if_neg h₁, if_pos h₂, e₁, e₂]
  · have e₁ : min n.lastApplied (idx - 1) = n.lastApplied := by omega
    have e₂ : min n.commitIndex (idx - 1) = n.commitIndex := by omega
    rw [if_neg h₁, if_neg h₂, e₁, e₂]

/-- **The second loop of `HandleAppendEntries`** takes over the leader's log, provided logs that
carry the same term at an index agree up to it. -/
theorem TakesOver.appendLoop (hmatch : AgreesByTerm F P) : ∀ (es : List Entry) (p : ℕ) (n : Node σ),
    n.log.Holds F → n.log.base ≤ p → p ≤ F.length → p ≤ P.length → F.take p = P.take p →
    es = P.drop p → TakesOver F P n (Node.appendLoop (p + 1) es n)
  | [], p, n, hn, _, _, hp, hpre, hes => by
    have hP : P.take p = P := List.take_of_length_le (List.drop_eq_nil_iff.mp hes.symm)
    have hacc := accepted_of_initial (hP ▸ hpre ▸ List.take_prefix p F : P <+: F)
    exact ⟨⟨_, _, _, _, rfl⟩, hacc.symm ▸ hn, rfl,
      Or.inl ⟨rfl, rfl, rfl, hacc.symm ▸ List.prefix_rfl⟩⟩
  | e :: es, p, n, hn, hb, hpF, hp, hpre, hes => by
    obtain ⟨hlt, htake, hdrop⟩ := take_of_drop_cons hes.symm
    have hterm : endTerm (P.take (p + 1)) = e.term := by rw [htake, endTerm_concat]
    have hlast := hn.lastIndex
    by_cases hin : p + 1 ≤ n.log.lastIndex
    · rw [Node.appendLoop, if_pos hin]
      rw [hlast] at hin
      have hat : n.log.termAt (p + 1) = endTerm (F.take (p + 1)) :=
        hn.termAt (hb.trans (Nat.le_succ p)) hin
      by_cases heq : n.log.termAt (p + 1) = e.term
      · -- present already
        rw [if_neg (not_not.mpr heq)]
        exact TakesOver.appendLoop hmatch es (p + 1) n hn (by omega) hin hlt
          (hmatch (p + 1) hin hlt (by rw [← hat, heq, hterm])) hdrop.symm
      · -- here the two logs part
        have hne : F.take (p + 1) ≠ P.take (p + 1) := fun h => heq (by rw [hat, h, hterm])
        have hnp : ¬ P <+: F := fun h => hne (by
          rw [List.prefix_iff_eq_take.mp h, List.take_take, Nat.min_eq_left (by omega)])
        rw [if_pos heq, overwrite_eq _ _ _ (Nat.succ_pos p)]
        have hcut : ((n.log.truncate (p + 1)).append e).Holds (P.take (p + 1)) := by
          have := (hn.truncate (i := p + 1) (by omega)).append e
          rwa [Nat.add_sub_cancel, hpre, ← htake] at this
        obtain ⟨log, hloop, hh, hbase⟩ := appendLoop_append es (p + 1) { n with
            log := (n.log.truncate (p + 1)).append e
            lastApplied := min n.lastApplied (p + 1 - 1)
            commitIndex := min n.commitIndex (p + 1 - 1)
            truncated := (p + 1, n.commitIndex) :: n.truncated } hcut hlt hdrop.symm
        rw [hloop]
        exact ⟨⟨_, _, _, _, rfl⟩, by rw [accepted_of_not_initial hnp]; exact hh, hbase,
          Or.inr ⟨p, hb, hlt, hne, accepted_of_not_initial hnp, rfl, rfl, rfl⟩⟩
    · -- the log ends here
      have hF : F = P.take p := by rw [← hpre, List.take_of_length_le (by omega)]
      have hacc := accepted_of_not_initial fun h : P <+: F => by
        have := h.length_le
        omega
      obtain ⟨log, hloop, hh, hbase⟩ := appendLoop_append (e :: es) p n (hF ▸ hn) hp hes
      rw [hloop]
      exact ⟨⟨_, _, _, _, rfl⟩, hacc.symm ▸ hh, hbase,
        Or.inl ⟨rfl, rfl, rfl, by rw [hacc, hF]; exact List.take_prefix p P⟩⟩

theorem accepted_plain (hF : ∀ e ∈ F, e.config = none) (hP : ∀ e ∈ P, e.config = none) :
    ∀ e ∈ accepted F P, e.config = none := by
  unfold accepted
  split
  · exact hF
  · exact hP

theorem TakesOver.sound (h : TakesOver F P n n') (hn : Sound F n) (hP : ∀ e ∈ P, e.config = none) :
    Sound (accepted F P) n' := by
  obtain ⟨-, h₁, h₂, h₃, hF⟩ := hn
  have hb := h.base
  have hplain := accepted_plain hF hP
  rcases h.indices with ⟨hl, hc, -, hpre⟩ | ⟨q, hq, hqP, -, hacc, hl, hc, -⟩
  · have hlen := hpre.length_le
    exact ⟨h.holds, by omega, by omega, by omega, hplain⟩
  · exact ⟨h.holds, by omega, by omega, by rw [hacc]; omega, hplain⟩

/-- **The end of `HandleAppendEntries`**: the leader's log is taken over, the commit index
follows the leader's, and what is committed is applied. -/
theorem takeEntries_spec {args : AppendEntries} (h : Sound F n) (hP : ∀ e ∈ P, e.config = none)
    (hb : n.log.base ≤ args.prevLogIndex) (hpF : args.prevLogIndex ≤ F.length)
    (hpP : args.prevLogIndex ≤ P.length)
    (hpre : F.take args.prevLogIndex = P.take args.prevLogIndex)
    (hes : args.entries = P.drop args.prevLogIndex) (hmatch : AgreesByTerm F P) :
    ∃ n₁, TakesOver F P n n₁ ∧
      Applies (accepted F P)
        { n₁ with commitIndex := max n₁.commitIndex (min args.leaderCommit (accepted F P).length) }
        (n.takeEntries E args) ∧
      (n.takeEntries E args).lastApplied =
        max n₁.commitIndex (min args.leaderCommit (accepted F P).length) := by
  have htake := TakesOver.appendLoop hmatch args.entries args.prevLogIndex n h.holds hb hpF hpP hpre
    hes
  have hs := htake.sound h hP
  have hcommit := hs.commit_le
  have hlast := hs.holds.lastIndex
  unfold takeEntries
  dsimp only
  generalize n.appendLoop (args.prevLogIndex + 1) args.entries = n₁ at htake hs hcommit hlast
  refine ⟨n₁, htake, ?_⟩
  have heq : (if args.leaderCommit > n₁.commitIndex then
      { n₁ with commitIndex := min args.leaderCommit n₁.log.lastIndex } else n₁) =
      { n₁ with
        commitIndex := max n₁.commitIndex (min args.leaderCommit (accepted F P).length) } := by
    rw [hlast]
    split
    · rw [max_eq_right (by omega)]
    · rw [max_eq_left (by omega)]
  rw [heq]
  exact Applies.applyCommittedLocked
    ⟨hs.holds, hs.base_le, hs.applied_le.trans (le_max_left _ _), max_le hcommit (min_le_right _ _),
      hs.plain⟩

/-! ## 5. The handlers, case by case -/

/-- Only the WAL and the pending outcomes have changed. -/
def Logged (n n' : Node σ) : Prop := ∃ wal writes, n' = { n with wal := wal, writes := writes }

theorem Logged.refl (n : Node σ) : Logged n n := ⟨_, _, rfl⟩

theorem Logged.trans (h : Logged n n') (h' : Logged n' n'') : Logged n n'' := by
  obtain ⟨_, _, rfl⟩ := h
  obtain ⟨_, _, rfl⟩ := h'
  exact ⟨_, _, rfl⟩

theorem persistEntryLocked_logged (E : Env σ) (idx : ℕ) (e : Entry) (n : Node σ) :
    Logged n (n.persistEntryLocked E idx e).1 := by
  unfold persistEntryLocked
  split
  · exact Logged.refl n
  split
  · exact Logged.refl n
  split <;> exact ⟨_, _, rfl⟩

theorem persistLoop_logged (E : Env σ) : ∀ (es : List Entry) (idx : ℕ) (n : Node σ),
    Logged n (n.persistLoop E idx es).1
  | [], _, n => Logged.refl n
  | e :: es, idx, n => by
    unfold persistLoop
    split
    · exact persistLoop_logged E es (idx + 1) n
    have hlog := persistEntryLocked_logged E idx e n
    split
    next n₁ heq =>
      rw [heq] at hlog
      exact hlog.trans (persistLoop_logged E es (idx + 1) n₁)
    next n₁ heq =>
      rw [heq] at hlog
      exact hlog

/-- Only the term, the vote, the role and what a leader knows of its peers have changed. -/
def Talked (n n' : Node σ) : Prop := ∃ role term vote leader noop next matched, n' = { n with
  role := role, currentTerm := term, votedFor := vote, leaderID := leader, noopIndex := noop
  nextIndex := next, matchIndex := matched }

theorem Talked.log (h : Talked n n') : n'.log = n.log := by
  obtain ⟨_, _, _, _, _, _, _, rfl⟩ := h
  rfl

theorem followLeader_talked (term : ℕ) (leaderID : String) (n : Node σ) :
    Talked n (n.followLeader term leaderID) := by
  unfold followLeader
  split <;> exact ⟨_, _, _, _, _, _, _, rfl⟩

theorem handleRequestVote_talked (args : RequestVote) (n : Node σ) :
    Talked n (n.handleRequestVote args).1 := by
  unfold handleRequestVote
  dsimp only
  split
  · exact ⟨_, _, _, _, _, _, _, rfl⟩
  · split <;> split <;> exact ⟨_, _, _, _, _, _, _, rfl⟩

theorem becomeCandidate_talked (n : Node σ) : Talked n n.becomeCandidate.1 := by
  unfold becomeCandidate
  split <;> exact ⟨_, _, _, _, _, _, _, rfl⟩

theorem onVoteReply_talked (term : ℕ) (reply : RequestVoteReply) (n : Node σ) :
    Talked n (n.onVoteReply term reply).1 := by
  unfold onVoteReply
  split <;> exact ⟨_, _, _, _, _, _, _, rfl⟩

theorem onHeartbeatReply_talked (reply : AppendEntriesReply) (n : Node σ) :
    Talked n (n.onHeartbeatReply reply).1 := by
  unfold onHeartbeatReply
  split <;> exact ⟨_, _, _, _, _, _, _, rfl⟩

theorem hearAppend_talked (peer : String) (args : AppendEntries) (reply : AppendEntriesReply)
    (n : Node σ) : Talked n (n.hearAppend peer args reply).1 := by
  unfold hearAppend
  split
  · exact ⟨_, _, _, _, _, _, _, rfl⟩
  split
  · exact ⟨_, _, _, _, _, _, _, rfl⟩
  split
  · dsimp only
    split <;> exact ⟨_, _, _, _, _, _, _, rfl⟩
  · split <;> exact ⟨_, _, _, _, _, _, _, rfl⟩

theorem hearSnapshot_talked (peer : String) (args : InstallSnapshot)
    (reply : InstallSnapshotReply) (n : Node σ) :
    Talked n (n.hearSnapshot peer args reply).1 := by
  unfold hearSnapshot
  split
  · exact ⟨_, _, _, _, _, _, _, rfl⟩
  split
  · exact ⟨_, _, _, _, _, _, _, rfl⟩
  · split <;> exact ⟨_, _, _, _, _, _, _, rfl⟩

/-- The checks of `HandleAppendEntries` pass. -/
def accepts (args : AppendEntries) (n : Node σ) : Bool :=
  n.currentTerm ≤ args.term && args.prevLogIndex ≤ n.log.lastIndex &&
    n.log.baseIndex ≤ args.prevLogIndex &&
    (args.prevLogIndex = 0 || n.log.termAt args.prevLogIndex = args.prevLogTerm)

theorem accepts_iff {args : AppendEntries} : n.accepts args = true ↔ n.currentTerm ≤ args.term ∧
    args.prevLogIndex ≤ n.log.lastIndex ∧ n.log.baseIndex ≤ args.prevLogIndex ∧
    (args.prevLogIndex = 0 ∨ n.log.termAt args.prevLogIndex = args.prevLogTerm) := by
  simp [accepts, and_assoc]

theorem handleAppendEntries_accepts (E : Env σ) (args : AppendEntries) (n : Node σ) :
    n.accepts args = false ∧
      (args.term < n.currentTerm ∧ n.handleAppendEntries E args = (n, { term := n.currentTerm }) ∨
        n.currentTerm ≤ args.term ∧ n.handleAppendEntries E args =
          (n.followLeader args.term args.leaderID, { term := n.currentTerm })) ∨
    n.accepts args = true ∧ n.handleAppendEntries E args =
      match (n.followLeader args.term args.leaderID).persistLoop E (args.prevLogIndex + 1)
          args.entries with
      | (n₁, false) => (n₁, { term := n.currentTerm })
      | (n₁, true) => (n₁.takeEntries E args, { term := n.currentTerm, success := true }) := by
  have hlog := (followLeader_talked args.term args.leaderID n).log
  have hno : ∀ {p : Prop}, (¬ p) → (n.accepts args = true → p) → n.accepts args = false :=
    fun hp h => Bool.eq_false_iff.mpr fun hacc => hp (h hacc)
  unfold handleAppendEntries
  dsimp only
  rw [hlog]
  split
  next hstale =>
    exact Or.inl ⟨hno (not_le.mpr hstale) fun h => (accepts_iff.mp h).1, Or.inl ⟨hstale, rfl⟩⟩
  next hstale =>
  have hstale := not_lt.mp hstale
  split
  next hshort =>
    exact Or.inl ⟨hno (not_le.mpr hshort) fun h => (accepts_iff.mp h).2.1, Or.inr ⟨hstale, rfl⟩⟩
  next hshort =>
  split
  next hbase =>
    exact Or.inl ⟨hno (not_le.mpr hbase) fun h => (accepts_iff.mp h).2.2.1, Or.inr ⟨hstale, rfl⟩⟩
  next hbase =>
  split
  next hconflict =>
    refine Or.inl ⟨hno ?_ fun h => (accepts_iff.mp h).2.2.2, Or.inr ⟨hstale, rfl⟩⟩
    rintro (hzero | hterm)
    · omega
    · exact hconflict.2 hterm
  next hconflict =>
  refine Or.inr ⟨accepts_iff.mpr ⟨hstale, not_lt.mp hshort, not_lt.mp hbase, ?_⟩, rfl⟩
  by_contra hcon
  exact hconflict (by omega)

theorem handleAppendEntries_cases (E : Env σ) (args : AppendEntries) (n : Node σ) :
    args.term < n.currentTerm ∧ n.handleAppendEntries E args = (n, { term := n.currentTerm }) ∨
    n.currentTerm ≤ args.term ∧ ∃ n₁, Logged (n.followLeader args.term args.leaderID) n₁ ∧
      (n.handleAppendEntries E args = (n₁, { term := n.currentTerm }) ∨
        n.log.base ≤ args.prevLogIndex ∧ args.prevLogIndex ≤ n.log.lastIndex ∧
        (0 < args.prevLogIndex → n.log.termAt args.prevLogIndex = args.prevLogTerm) ∧
        n.handleAppendEntries E args =
          (n₁.takeEntries E args, { term := n.currentTerm, success := true })) := by
  rcases n.handleAppendEntries_accepts E args with ⟨-, hstale | ⟨hle, heq⟩⟩ | ⟨hacc, heq⟩
  · exact Or.inl hstale
  · exact Or.inr ⟨hle, _, Logged.refl _, Or.inl heq⟩
  · obtain ⟨hle, hshort, hbase, hterm⟩ := accepts_iff.mp hacc
    have hp := persistLoop_logged E args.entries (args.prevLogIndex + 1)
      (n.followLeader args.term args.leaderID)
    generalize (n.followLeader args.term args.leaderID).persistLoop E (args.prevLogIndex + 1)
      args.entries = x at hp heq
    refine Or.inr ⟨hle, x.1, hp, ?_⟩
    rcases x with ⟨n₁, _ | _⟩
    · exact Or.inl heq
    · exact Or.inr ⟨hbase, hshort, fun hpos => hterm.resolve_left hpos.ne', heq⟩

/-- The log after a snapshot is installed: the matching tail is kept. -/
def rebased (args : InstallSnapshot) (l : Log) : Log :=
  if args.lastIncludedIndex > l.lastIndex ∨
      l.termAt args.lastIncludedIndex ≠ args.lastIncludedTerm then
    l.reset args.lastIncludedIndex args.lastIncludedTerm
  else l.compact args.lastIncludedIndex args.lastIncludedTerm

theorem rebased_base (args : InstallSnapshot) (l : Log) :
    (rebased args l).base = args.lastIncludedIndex := by
  unfold rebased
  split
  · rfl
  · unfold Log.compact
    split <;> rfl

variable {args : InstallSnapshot}

/-- **A snapshot of `P`** turns the log into the one that accepted `P`. -/
theorem rebased_holds (h : l.Holds F) (hb : l.base ≤ args.lastIncludedIndex)
    (hlen : args.lastIncludedIndex = P.length) (hterm : args.lastIncludedTerm = endTerm P)
    (hmatch : AgreesByTerm F P) : (rebased args l).Holds (accepted F P) := by
  unfold rebased
  by_cases hin : args.lastIncludedIndex ≤ F.length
  · have hat := h.termAt hb hin
    by_cases heq : l.termAt args.lastIncludedIndex = args.lastIncludedTerm
    · have hpre : F.take P.length = P := by
        have := hmatch P.length (hlen ▸ hin) (le_refl _)
          (by rw [List.take_length, ← hterm, ← heq, hat, hlen])
        rwa [List.take_length] at this
      rw [if_neg (by rw [h.lastIndex]; omega),
        accepted_of_initial (hpre ▸ List.take_prefix _ _)]
      exact h.compact hb hin (by rw [hterm, hlen, hpre])
    · rw [if_pos (Or.inr heq), accepted_of_not_initial]
      · exact Log.Holds.reset l hlen hterm
      · intro hpre
        apply heq
        rw [hat, hterm, hlen, ← List.prefix_iff_eq_take.mp hpre]
  · rw [if_pos (Or.inl (by rw [h.lastIndex]; omega)), accepted_of_not_initial]
    · exact Log.Holds.reset l hlen hterm
    · intro hpre
      have := hpre.length_le
      omega

theorem handleInstallSnapshot_cases (E : Env σ) (args : InstallSnapshot) (n : Node σ) :
    args.term < n.currentTerm ∧ (n.handleInstallSnapshot E args).1 = n ∨
    n.currentTerm ≤ args.term ∧
      ((n.handleInstallSnapshot E args).1 = n.followLeader args.term args.leaderID ∨
        n.lastApplied < args.lastIncludedIndex ∧ ∃ fsm saves snapshot,
          (n.handleInstallSnapshot E args).1 = { n.followLeader args.term args.leaderID with
            fsm := fsm, saves := saves, snapshot := snapshot
            log := rebased args n.log
            commitIndex := max n.commitIndex args.lastIncludedIndex
            lastApplied := args.lastIncludedIndex } ∧
          E.install n.fsm args.data = some fsm ∧
          (snapshot = n.snapshot ∧ (n.snapshotStore = false ∨ n.saves.headD true = false) ∨
            n.snapshotStore = true ∧ snapshot = some
              { lastIncludedIndex := args.lastIncludedIndex
                lastIncludedTerm := args.lastIncludedTerm, data := args.data })) := by
  obtain ⟨_, _, _, _, _, _, _, hf⟩ := followLeader_talked args.term args.leaderID n
  unfold handleInstallSnapshot
  rw [hf]
  by_cases hstale : args.term < n.currentTerm
  · exact Or.inl ⟨hstale, by rw [if_pos hstale]⟩
  rw [if_neg hstale]
  refine Or.inr ⟨not_lt.mp hstale, ?_⟩
  by_cases hold : args.lastIncludedIndex ≤ n.lastApplied
  · exact Or.inl (by rw [if_pos hold])
  rw [if_neg hold]
  rcases hinstall : E.install n.fsm args.data with _ | fsm
  · exact Or.inl rfl
  refine Or.inr ⟨not_le.mp hold, ?_⟩
  dsimp only
  by_cases hstore : n.snapshotStore = true
  · rw [if_pos hstore]
    unfold saveSnapshot
    by_cases hok : n.saves.headD true = true
    · rw [if_pos hok]
      exact ⟨_, _, _, rfl, rfl, Or.inr ⟨hstore, rfl⟩⟩
    · rw [if_neg hok]
      exact ⟨_, _, _, rfl, rfl, Or.inl ⟨rfl, Or.inr (Bool.not_eq_true _ ▸ hok)⟩⟩
  · rw [if_neg hstore]
    exact ⟨_, _, _, rfl, rfl, Or.inl ⟨rfl, Or.inl (Bool.not_eq_true _ ▸ hstore)⟩⟩

end Node

end Cachey.Raft
