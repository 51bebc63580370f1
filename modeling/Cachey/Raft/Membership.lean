/-
# The voters of one node

Membership reaches a node on four routes: a configuration entry is applied, a snapshot that
covers one is installed, a restart replays the write-ahead log, a restart adopts the meta file.
This file follows ONE node through any sequence of calls, with any outcome of its durable writes,
and compares its voter set with the newest configuration it was told of.

* `Member` is the node with two things it does not keep itself: the configurations in the prefix
  that its latest installed snapshot stands for, and the indices written to the meta store.
* Every event but an InstallSnapshot and a restart is a preparation that leaves the membership
  alone, followed by `applyCommittedLocked` on the node `applying` names.
* `voters_coherent`: the voters are those of the newest configuration, and the indices written
  never go down, as long as (a) an installed snapshot covers no configuration above the newest one
  APPLIED, (b) a restart finds the newest configuration recorded: by its index in the meta file, or,
  if none was ever saved, as the last configuration record of the write-ahead log, and (c) no OLDER
  configuration is applied again.

(a) is needed because the snapshot carries no configuration: the node passes over the ones it
covers and keeps the voters it has.  (b) is needed because a failed meta save is only logged, and
because the write-ahead log knows nothing of what is committed.  (c) is what a restart breaks.  The
node starts over at the base of its snapshot and applies the configurations above it once more as
the commit index returns, each of them overwriting the newer one that was adopted from the meta
file, and the meta file too.
-/
import Cachey.Raft.Durable
import Mathlib.Data.List.MinMax

namespace Cachey.Raft

open Wal (Record WriteOutcome)

variable {σ : Type} {E : Env σ}

/-! ## 1. Configurations at their indices -/

abbrev Placed := ℕ × Configuration

def Entry.placed (i : ℕ) (e : Entry) : Option Placed := e.config.map (Prod.mk i)

/-- The configurations among the entries applied, newest first. -/
def configsOf (applied : List (ℕ × Entry)) : List Placed :=
  applied.filterMap fun x => x.2.placed x.1

/-- The configuration with the highest index; of several the first. -/
def newest (cs : List Placed) : Option Placed := cs.argmax Prod.fst

/-- The same servers, in whatever order. -/
def SameVoters (a b : List String) : Prop := a ⊆ b ∧ b ⊆ a

instance (a b : List String) : Decidable (SameVoters a b) := inferInstanceAs (Decidable (_ ∧ _))

theorem SameVoters.refl (a : List String) : SameVoters a a :=
  ⟨List.Subset.refl a, List.Subset.refl a⟩

theorem SameVoters.trans {a b c : List String} (h : SameVoters a b) (h' : SameVoters b c) :
    SameVoters a c :=
  ⟨List.Subset.trans h.1 h'.1, List.Subset.trans h'.2 h.2⟩

theorem sameVoters_iff {a b : List String} : SameVoters a b ↔ ∀ id, id ∈ a ↔ id ∈ b := by
  constructor
  · rintro ⟨h₁, h₂⟩ id
    exact ⟨fun h => h₁ h, fun h => h₂ h⟩
  · intro h
    exact ⟨fun id hid => (h id).mp hid, fun id hid => (h id).mpr hid⟩

/-- `applyConfigLocked` and `AdoptCommittedMeta` keep the list without the node itself, and whether
the node was on it: that is the whole list. -/
theorem sameVoters_split (me : String) (voters : List String) :
    SameVoters (if decide (me ∉ voters) = true then voters.filter fun id => id ≠ me
      else me :: voters.filter fun id => id ≠ me) voters := by
  rw [sameVoters_iff]
  intro id
  by_cases hme : me ∈ voters
  · rw [if_neg (by simp [hme])]
    by_cases hid : id = me
    · simp [hid, hme]
    · simp [hid]
  · rw [if_pos (by simp [hme])]
    simp only [List.mem_filter, decide_eq_true_eq, and_iff_left_iff_imp]
    rintro hid rfl
    exact hme hid

/-- Behind configurations that go up to `c`, all at or above what came before, `c` is the newest. -/
theorem newest_append {new old : List Placed} {c : Placed} (hhead : new.head? = some c)
    (hdown : new.Pairwise fun x y => y.1 ≤ x.1) (hold : ∀ d ∈ old, d.1 ≤ c.1) :
    newest (new ++ old) = some c := by
  obtain ⟨rest, rfl⟩ : ∃ rest, new = c :: rest := by
    cases new with
    | nil => cases hhead
    | cons a rest => exact ⟨rest, by rw [Option.some.inj hhead]⟩
  have hrest : ∀ d ∈ rest ++ old, d.1 ≤ c.1 := by
    intro d hd
    rcases List.mem_append.mp hd with hd | hd
    · exact (List.pairwise_cons.mp hdown).1 d hd
    · exact hold d hd
  unfold newest
  rw [List.cons_append, List.argmax_cons]
  cases hmax : List.argmax Prod.fst (rest ++ old) with
  | none => rfl
  | some d => exact if_neg (not_lt.mpr (hrest d (List.argmax_mem hmax)))

theorem le_newest {cs : List Placed} {b c : Placed} (hb : newest cs = some b) (hc : c ∈ cs) :
    c.1 ≤ b.1 :=
  List.le_of_mem_argmax hc hb

theorem newest_covered (cs : List Placed) : ∀ old : List Placed,
    (∀ c ∈ old, ∃ b ∈ newest cs, c.1 ≤ b.1) → newest (cs ++ old) = newest cs := by
  intro old
  induction old using List.reverseRecOn with
  | nil => exact fun _ => by rw [List.append_nil]
  | append_singleton old c ih =>
    intro h
    have hrec := ih fun d hd => h d (List.mem_append_left _ hd)
    obtain ⟨b, hb, hle⟩ := h c (List.mem_append_right _ (List.mem_singleton_self c))
    unfold newest at hb hrec ⊢
    rw [← List.append_assoc, List.argmax_concat, hrec, hb]
    exact if_neg (not_lt.mpr hle)

theorem newest_mono {cs cs' : List Placed} (hsub : cs ⊆ cs') {b : Placed} (hb : b ∈ newest cs) :
    ∃ b' ∈ newest cs', b.1 ≤ b'.1 := by
  have hmem : b ∈ cs' := hsub (List.argmax_mem hb)
  cases hb' : newest cs' with
  | none =>
    rw [newest, List.argmax_eq_none] at hb'
    rw [hb'] at hmem
    cases hmem
  | some b' => exact ⟨b', rfl, le_newest hb' hmem⟩

/-! ## 2. Applying

The node adopts a configuration when it passes the entry, whatever it had before.  So behind a
stretch of applied entries the voters are those of the LAST configuration in it, and that is the
newest one only if the stretch was not passed before. -/

/-- What membership is read off: nothing else about a node matters below. -/
structure Standing where
  id : String
  peers : List String
  removed : Bool
  metaStore : Bool
  savedMeta : Option CommittedMeta
  applied : List (ℕ × Entry)

def Standing.voters (x : Standing) : List String := if x.removed then x.peers else x.id :: x.peers

namespace Node

variable {n m : Node σ}

def standing (n : Node σ) : Standing :=
  { id := n.id, peers := n.peers, removed := n.removed, metaStore := n.metaStore
    savedMeta := n.savedMeta, applied := n.applied }

/-- The entry that `applyCommittedLocked` is about to pass. -/
def nextEntry (n : Node σ) : Entry := n.log.entryAt (n.lastApplied + 1)

/-- The configurations among the next `turns` entries. -/
def pending (turns : ℕ) (n : Node σ) : List Placed :=
  (List.range' (n.lastApplied + 1) turns).filterMap fun i => (n.log.entryAt i).placed i

/-- The index written to the meta store by one turn of `applyCommittedLocked`, if any is. -/
def metaWrite (n : Node σ) : List ℕ :=
  if n.nextEntry.config.isSome && n.metaStore && n.saves.headD true then [n.lastApplied + 1] else []

/-- The indices written to the meta store by `turns` turns, the first one first. -/
def metaWrites (E : Env σ) : (turns : ℕ) → Node σ → List ℕ
  | 0, _ => []
  | turns + 1, n => n.metaWrite ++ metaWrites E turns (n.applyNext E)

theorem entryAt_maybeCompactLocked (E : Env σ) (n : Node σ) {i : ℕ} (hi : n.lastApplied < i) :
    (n.maybeCompactLocked E).log.entryAt i = n.log.entryAt i ∧
      (n.maybeCompactLocked E).standing = n.standing ∧
      (n.maybeCompactLocked E).lastApplied = n.lastApplied := by
  rcases maybeCompactLocked_cases E n with ⟨saves, heq⟩ | ⟨hlt, saves, snapshot, heq, -⟩
  · rw [heq]
    exact ⟨rfl, rfl, rfl⟩
  · rw [heq]
    refine ⟨?_, rfl, rfl⟩
    unfold Log.compact Log.entryAt
    obtain ⟨k, rfl⟩ : ∃ k, i = n.lastApplied + 1 + k := ⟨i - n.lastApplied - 1, by omega⟩
    have hnew : n.lastApplied + 1 + k - n.lastApplied = k + 1 := by omega
    split
    next hge =>
      have hlen : n.log.entries.length ≤ n.lastApplied + 1 + k - n.log.base := by
        unfold Log.lastIndex at hge
        omega
      rw [hnew, List.getD_eq_getElem?_getD, List.getD_eq_getElem?_getD,
        List.getElem?_eq_none hlen]
      rfl
    next =>
      rw [hnew, List.getD_cons_succ, List.getD_eq_getElem?_getD, List.getD_eq_getElem?_getD,
        List.getElem?_drop]
      congr 2
      omega

theorem standing_applyConfigLocked (cfg : Configuration) (idx : ℕ) (n : Node σ) :
    (n.applyConfigLocked cfg idx).standing = { n.standing with
      peers := cfg.voters.filter fun id => id ≠ n.id
      removed := decide (n.id ∉ cfg.voters)
      savedMeta := if n.metaStore && n.saves.headD true then
        some { voters := cfg.voters, addrs := cfg.addrs, index := idx } else n.savedMeta } ∧
    (n.applyConfigLocked cfg idx).log = n.log ∧
    (n.applyConfigLocked cfg idx).lastApplied = n.lastApplied := by
  obtain ⟨_, _, _, _, _, heq, -⟩ := applyConfigLocked_cases cfg idx n
  rw [heq]
  exact ⟨rfl, rfl, rfl⟩

theorem applyNext_plain (h : n.nextEntry.config = none) :
    (n.applyNext E).standing = { n.standing with
      applied := (n.lastApplied + 1, n.nextEntry) :: n.applied } := by
  unfold nextEntry at h ⊢
  unfold applyNext
  dsimp only
  rw [h]
  cases (n.log.entryAt (n.lastApplied + 1)).command with
  | none => rfl
  | some c => exact (entryAt_maybeCompactLocked E _ (Nat.lt_succ_self _)).2.1

theorem applyNext_config {cfg : Configuration} (h : n.nextEntry.config = some cfg) :
    (n.applyNext E).standing = { n.standing with
      peers := cfg.voters.filter fun id => id ≠ n.id
      removed := decide (n.id ∉ cfg.voters)
      savedMeta := if n.metaStore && n.saves.headD true then
        some { voters := cfg.voters, addrs := cfg.addrs, index := n.lastApplied + 1 }
        else n.savedMeta
      applied := (n.lastApplied + 1, n.nextEntry) :: n.applied } := by
  unfold nextEntry at h ⊢
  unfold applyNext
  dsimp only
  rw [h]
  exact (standing_applyConfigLocked cfg (n.lastApplied + 1) _).1

theorem applyNext_ahead (E : Env σ) (n : Node σ) :
    (n.applyNext E).lastApplied = n.lastApplied + 1 ∧
      ∀ i, n.lastApplied + 1 < i → (n.applyNext E).log.entryAt i = n.log.entryAt i := by
  unfold applyNext
  dsimp only
  cases (n.log.entryAt (n.lastApplied + 1)).config with
  | some cfg =>
    obtain ⟨-, hlog, hlast⟩ := standing_applyConfigLocked cfg (n.lastApplied + 1) { n with
      lastApplied := n.lastApplied + 1
      applied := (n.lastApplied + 1, n.log.entryAt (n.lastApplied + 1)) :: n.applied }
    exact ⟨hlast, fun i _ => by dsimp only; rw [hlog]⟩
  | none =>
    cases (n.log.entryAt (n.lastApplied + 1)).command with
    | none => exact ⟨rfl, fun _ _ => rfl⟩
    | some c =>
      exact ⟨(entryAt_maybeCompactLocked E _ (Nat.lt_succ_self _)).2.2,
        fun i hi => (entryAt_maybeCompactLocked E _ hi).1⟩

theorem pending_succ (E : Env σ) (turns : ℕ) (n : Node σ) :
    n.pending (turns + 1) =
      (n.nextEntry.placed (n.lastApplied + 1)).toList ++ (n.applyNext E).pending turns := by
  obtain ⟨hlast, hahead⟩ := applyNext_ahead E n
  have hrest : (n.applyNext E).pending turns =
      (List.range' (n.lastApplied + 1 + 1) turns).filterMap fun i =>
        (n.log.entryAt i).placed i := by
    unfold pending
    rw [hlast]
    refine List.filterMap_congr fun i hi => ?_
    rw [hahead i (by have := List.mem_range'_1.mp hi; omega)]
  rw [hrest]
  unfold pending nextEntry
  rw [List.range'_succ, List.filterMap_cons]
  cases (n.log.entryAt (n.lastApplied + 1)).placed (n.lastApplied + 1) <;> rfl

theorem pending_up (turns : ℕ) (n : Node σ) :
    (n.pending turns).Pairwise fun x y => x.1 ≤ y.1 := by
  refine List.Pairwise.filterMap _ (fun i j hij x hx y hy => ?_)
    (List.pairwise_lt_range' 1)
  obtain ⟨_, -, rfl⟩ := Option.map_eq_some_iff.mp hx
  obtain ⟨_, -, rfl⟩ := Option.map_eq_some_iff.mp hy
  exact hij.le

end Node

/-- From `x` to `x'` the configurations `cs` were adopted, the oldest first, and the indices `ws` of
them were saved. -/
structure Standing.Adopts (cs : List Placed) (ws : List ℕ) (x x' : Standing) : Prop where
  id : x'.id = x.id
  metaStore : x'.metaStore = x.metaStore
  applied : configsOf x'.applied = cs.reverse ++ configsOf x.applied
  voters : SameVoters x'.voters ((cs.getLast?.map fun c => c.2.voters).getD x.voters)
  writes : ws.Sublist (cs.map Prod.fst)
  saved : x'.savedMeta.map CommittedMeta.index =
    ws.getLast?.or (x.savedMeta.map CommittedMeta.index)
  savedFrom : ∀ m ∈ x'.savedMeta, m ∈ x.savedMeta ∨ ∃ c ∈ cs, c.1 = m.index ∧ c.2.voters = m.voters

namespace Standing.Adopts

theorem refl (x : Standing) : Adopts [] [] x x where
  id := rfl
  metaStore := rfl
  applied := rfl
  voters := SameVoters.refl _
  writes := List.Sublist.refl _
  saved := rfl
  savedFrom := fun _ h => Or.inl h

theorem trans {cs cs' : List Placed} {ws ws' : List ℕ} {x x' x'' : Standing}
    (h : Adopts cs ws x x') (h' : Adopts cs' ws' x' x'') :
    Adopts (cs ++ cs') (ws ++ ws') x x'' where
  id := h'.id.trans h.id
  metaStore := h'.metaStore.trans h.metaStore
  applied := by rw [h'.applied, h.applied, List.reverse_append, List.append_assoc]
  voters := by
    refine h'.voters.trans ?_
    rw [List.getLast?_append]
    cases cs'.getLast? with
    | none => exact h.voters
    | some c => exact SameVoters.refl _
  writes := by
    rw [List.map_append]
    exact h.writes.append h'.writes
  saved := by rw [h'.saved, h.saved, List.getLast?_append, Option.or_assoc]
  savedFrom := by
    intro m hm
    rcases h'.savedFrom m hm with hm | ⟨c, hc, heq⟩
    · exact (h.savedFrom m hm).imp_right fun ⟨c, hc, heq⟩ => ⟨c, List.mem_append_left _ hc, heq⟩
    · exact Or.inr ⟨c, List.mem_append_right _ hc, heq⟩

theorem applyNext (E : Env σ) (n : Node σ) :
    Adopts (n.nextEntry.placed (n.lastApplied + 1)).toList n.metaWrite n.standing
      (n.applyNext E).standing := by
  cases hcfg : n.nextEntry.config with
  | none =>
    have hplaced : n.nextEntry.placed (n.lastApplied + 1) = none := by simp [Entry.placed, hcfg]
    have hwrite : n.metaWrite = [] := by simp [Node.metaWrite, hcfg]
    rw [Node.applyNext_plain hcfg, hplaced, hwrite]
    exact { refl n.standing with applied := by simp [configsOf, hplaced, Node.standing] }
  | some cfg =>
    have hplaced : n.nextEntry.placed (n.lastApplied + 1) = some (n.lastApplied + 1, cfg) := by
      simp [Entry.placed, hcfg]
    rw [Node.applyNext_config hcfg, hplaced]
    refine
      { id := rfl
        metaStore := rfl
        applied := by simp [configsOf, hplaced, Node.standing]
        voters := sameVoters_split n.id cfg.voters
        writes := ?_
        saved := ?_
        savedFrom := ?_ }
    · unfold Node.metaWrite
      split
      · exact List.Sublist.refl _
      · exact List.nil_sublist _
    · unfold Node.metaWrite
      rw [hcfg, Option.isSome_some, Bool.true_and]
      cases n.metaStore && n.saves.headD true with
      | true => rfl
      | false => rfl
    · intro m hm
      split at hm
      · obtain rfl := Option.some.inj hm
        exact Or.inr ⟨(n.lastApplied + 1, cfg), by simp, rfl, rfl⟩
      · exact Or.inl hm

theorem applyLoop (E : Env σ) : ∀ (turns : ℕ) (n : Node σ),
    Adopts (n.pending turns) (n.metaWrites E turns) n.standing (n.applyLoop E turns).standing
  | 0, n => refl n.standing
  | turns + 1, n => by
    rw [Node.pending_succ E turns n]
    exact (applyNext E n).trans (applyLoop E turns (n.applyNext E))

end Standing.Adopts

/-! ## 3. What comes before applying -/

namespace Node

variable {n m : Node σ}

/-- `updateCommitIndexLocked` up to `applyCommittedLocked`. -/
def advance (n : Node σ) : Node σ :=
  commitLoop (n.log.lastIndex - n.commitIndex) (n.commitIndex + 1) n

/-- `HandleAppendEntries`, when everything is durable, up to `applyCommittedLocked`. -/
def taken (args : AppendEntries) (n : Node σ) : Node σ :=
  let n := n.appendLoop (args.prevLogIndex + 1) args.entries
  if args.leaderCommit > n.commitIndex then
    { n with commitIndex := min args.leaderCommit n.log.lastIndex }
  else n

/-- The node at which `updateCommitIndexLocked` applies, if the function gets there. -/
def committing : Node σ × Bool → Option (Node σ)
  | (n, true) => some n.advance
  | (_, false) => none

def submitting (E : Env σ) : Except Error (Node σ × Entry) → Option (Node σ)
  | .error _ => none
  | .ok (n, e) => committing (n.addEntry E e)

/-- The node at which an event calls `applyCommittedLocked`, if it does. -/
def applying (E : Env σ) (n : Node σ) : Event → Option (Node σ)
  | .appendEntries args =>
    if n.accepts args then
      match (n.followLeader args.term args.leaderID).persistLoop E (args.prevLogIndex + 1)
          args.entries with
      | (n, true) => some (n.taken args)
      | (_, false) => none
    else none
  | .promote term =>
    if n.role = .leader ∧ n.currentTerm = term then none else committing (n.takeOffice E term)
  | .propose command => submitting E (n.proposed command)
  | .addServer id addr => submitting E (n.addition id addr)
  | .removeServer id => submitting E (n.removal id)
  | .appendReply peer args reply => committing (n.hearAppend peer args reply)
  | .snapshotReply peer args reply => committing (n.hearSnapshot peer args reply)
  | _ => none

theorem Talked.standing (h : Talked n m) : m.standing = n.standing := by
  obtain ⟨_, _, _, _, _, _, _, rfl⟩ := h
  rfl

theorem Logged.standing (h : Logged n m) : m.standing = n.standing := by
  obtain ⟨_, _, rfl⟩ := h
  rfl

theorem standing_overwrite (idx : ℕ) (e : Entry) (n : Node σ) :
    (n.overwrite idx e).standing = n.standing := by
  unfold overwrite
  dsimp only
  split <;> split <;> rfl

theorem standing_appendLoop : ∀ (es : List Entry) (idx : ℕ) (n : Node σ),
    (n.appendLoop idx es).standing = n.standing
  | [], _, _ => rfl
  | e :: es, idx, n => by
    refine (standing_appendLoop es (idx + 1) _).trans ?_
    split
    · split
      · exact standing_overwrite idx e n
      · rfl
    · rfl

theorem standing_taken (args : AppendEntries) (n : Node σ) :
    (n.taken args).standing = n.standing := by
  have hloop := standing_appendLoop args.entries (args.prevLogIndex + 1) n
  unfold taken
  dsimp only
  split
  · exact hloop
  · exact hloop

theorem standing_advance (n : Node σ) : n.advance.standing = n.standing := by
  unfold advance
  obtain ⟨_, heq, -⟩ :=
    commitLoop_cases (n.log.lastIndex - n.commitIndex) (n.commitIndex + 1) n
  rw [heq]
  rfl

theorem standing_addEntry (E : Env σ) (e : Entry) (n : Node σ) :
    (n.addEntry E e).1.standing = n.standing := by
  have hone := (persistEntryLocked_logged E (n.log.lastIndex + 1) e n).standing
  unfold addEntry
  split
  next heq =>
    rw [heq] at hone
    exact hone
  next heq =>
    rw [heq] at hone
    exact hone

theorem standing_takeOffice (E : Env σ) (term : ℕ) (n : Node σ) :
    (n.takeOffice E term).1.standing = n.standing := by
  have hone := (persistEntryLocked_logged E (n.log.lastIndex + 1) { term := term } n).standing
  unfold takeOffice
  split
  · rfl
  · dsimp only
    split
    next heq =>
      rw [heq] at hone
      exact hone
    next heq =>
      rw [heq] at hone
      exact hone

theorem standing_handleInstallSnapshot (E : Env σ) (args : InstallSnapshot) (n : Node σ) :
    (n.handleInstallSnapshot E args).1.standing = n.standing := by
  have hfollow := (followLeader_talked args.term args.leaderID n).standing
  rcases n.handleInstallSnapshot_cases E args with ⟨-, heq⟩ | ⟨-, heq | ⟨-, _, _, _, heq, -⟩⟩
  · rw [heq]
  · rw [heq, hfollow]
  · rw [heq]
    exact hfollow

/-- If the call gets to `updateCommitIndexLocked`, it applies; if not, nothing has changed. -/
theorem commitIf_standing (E : Env σ) {x : Node σ × Bool} (hx : x.1.standing = n.standing) :
    (∃ m, committing x = some m ∧ m.standing = n.standing ∧
      commitIf E x = m.applyCommittedLocked E) ∨
    committing x = none ∧ (commitIf E x).standing = n.standing := by
  rcases x with ⟨n₁, _ | _⟩
  · exact Or.inr ⟨rfl, hx⟩
  · exact Or.inl ⟨n₁.advance, rfl, (standing_advance n₁).trans hx, rfl⟩

theorem submit_standing (E : Env σ) {r : Except Error (Node σ × Entry)}
    (hr : ∀ x, r = .ok x → x.1.standing = n.standing) :
    (∃ m, submitting E r = some m ∧ m.standing = n.standing ∧
      (n.submit E r).1 = m.applyCommittedLocked E) ∨
    submitting E r = none ∧ (n.submit E r).1.standing = n.standing := by
  rcases r with err | ⟨n₁, e⟩
  · exact Or.inr ⟨rfl, rfl⟩
  · have hadd := (standing_addEntry E e n₁).trans (hr _ rfl)
    unfold submitting submit appendEntryLocked
    dsimp only
    generalize n₁.addEntry E e = x at hadd ⊢
    rcases x with ⟨n₂, _ | _⟩
    · exact Or.inr ⟨rfl, hadd⟩
    · exact Or.inl ⟨n₂.advance, rfl, (standing_advance n₂).trans hadd, rfl⟩

/-- **Every event** but a restart either calls `applyCommittedLocked` on a node with the same
standing, or leaves the standing alone. -/
theorem hear_standing (E : Env σ) (K : Setup σ) (n : Node σ) {ev : Event} (hev : ev ≠ .restart) :
    (∃ m, n.applying E ev = some m ∧ m.standing = n.standing ∧
      n.hear E K ev = m.applyCommittedLocked E) ∨
    n.applying E ev = none ∧ (n.hear E K ev).standing = n.standing := by
  cases ev with
  | requestVote args => exact Or.inr ⟨rfl, (handleRequestVote_talked args n).standing⟩
  | appendEntries args =>
    unfold applying hear
    dsimp only
    have hfollow := (followLeader_talked args.term args.leaderID n).standing
    have hloop := (persistLoop_logged E args.entries (args.prevLogIndex + 1)
      (n.followLeader args.term args.leaderID)).standing
    rcases n.handleAppendEntries_accepts E args with ⟨hno, ⟨-, heq⟩ | ⟨-, heq⟩⟩ | ⟨hacc, heq⟩
    · rw [hno, heq]
      exact Or.inr ⟨rfl, rfl⟩
    · rw [hno, heq]
      exact Or.inr ⟨rfl, hfollow⟩
    · rw [hacc, heq, if_pos rfl]
      generalize (n.followLeader args.term args.leaderID).persistLoop E (args.prevLogIndex + 1)
        args.entries = x at hloop
      rcases x with ⟨n₁, _ | _⟩
      · exact Or.inr ⟨rfl, hloop.trans hfollow⟩
      · exact Or.inl ⟨n₁.taken args, rfl, (standing_taken args n₁).trans (hloop.trans hfollow), rfl⟩
  | installSnapshot args => exact Or.inr ⟨rfl, standing_handleInstallSnapshot E args n⟩
  | timeout => exact Or.inr ⟨rfl, (becomeCandidate_talked n).standing⟩
  | voteReply term reply => exact Or.inr ⟨rfl, (onVoteReply_talked term reply n).standing⟩
  | promote term =>
    have htake := standing_takeOffice E term n
    unfold applying hear tryBecomeLeader
    dsimp only
    split
    · exact Or.inr ⟨rfl, rfl⟩
    · generalize n.takeOffice E term = x at htake
      rcases x with ⟨n₁, _ | _⟩
      · exact Or.inr ⟨rfl, htake⟩
      · exact Or.inl ⟨n₁.advance, rfl, (standing_advance n₁).trans htake, rfl⟩
  | propose command => exact submit_standing E fun x hx => by rw [(proposed_ok hx).2]
  | addServer id addr =>
    refine submit_standing E fun x hx => ?_
    obtain ⟨_, rfl⟩ := (addition_ok hx).2
    rfl
  | removeServer id => exact submit_standing E fun x hx => by rw [(removal_ok hx).2]
  | appendReply peer args reply =>
    exact commitIf_standing E (hearAppend_talked peer args reply n).standing
  | snapshotReply peer args reply =>
    exact commitIf_standing E (hearSnapshot_talked peer args reply n).standing
  | heartbeatReply reply => exact Or.inr ⟨rfl, (onHeartbeatReply_talked reply n).standing⟩
  | resign => exact Or.inr ⟨rfl, rfl⟩
  | restart => exact absurd rfl hev

end Node

/-! ## 4. Restarts

A restart has three sources and no way to compare them: a meta file wins if there is one, then the
last configuration record above the snapshot, then the configured peers.  `Setup.stored` says which
voters come out; everything else a restart does leaves them alone. -/

/-- The configuration that `ApplyRecoveredRecord` takes from a record. -/
def recordedConfig (E : Env σ) (base : ℕ) (r : Record) : Option Configuration :=
  if r.raftIndex ≤ base then none else (Node.recoveredEntry E r).bind Entry.config

/-- The voters that a restart finds on disk: those of the meta file; without one those of the last
configuration in the write-ahead log above the snapshot, committed or not; else the configured
ones.  Without a meta file the node always counts itself in. -/
def Setup.stored (E : Env σ) (K : Setup σ) (n : Node σ) : List String :=
  match n.savedMeta with
  | some m => m.voters
  | none =>
    let base := (n.snapshot.map Snapshot.lastIncludedIndex).getD 0
    K.id :: ((n.wal.filterMap (recordedConfig E base)).getLast?.map Configuration.voters).getD
      K.peers

/-- The configuration records above the saved snapshot, at their indices, in the order they were
written. -/
def Node.recordedConfigs (E : Env σ) (n : Node σ) : List Placed :=
  n.wal.filterMap fun r => (recordedConfig E ((n.snapshot.map Snapshot.lastIncludedIndex).getD 0)
    r).map (Prod.mk r.raftIndex)

theorem Node.recordedConfigs_last (E : Env σ) (n : Node σ) :
    (n.wal.filterMap (recordedConfig E ((n.snapshot.map Snapshot.lastIncludedIndex).getD
      0))).getLast? = (n.recordedConfigs E).getLast?.map Prod.snd := by
  rw [← List.getLast?_map, Node.recordedConfigs, List.map_filterMap]
  congr 2
  funext r
  cases recordedConfig E ((n.snapshot.map Snapshot.lastIncludedIndex).getD 0) r <;> rfl

theorem replay_standing : ∀ (recs : List Record) {n m : Node σ}, n.replay E recs = some m →
    m.standing = { n.standing with
      peers := ((recs.filterMap (recordedConfig E n.log.base)).getLast?.map fun cfg =>
        cfg.voters.filter fun id => id ≠ n.id).getD n.peers }
  | [], n, m, h => by
    cases h
    rfl
  | r :: recs, n, m, h => by
    unfold Node.replay at h
    split at h
    next hknown =>
      obtain ⟨n₁, hone, hrest⟩ := Option.bind_eq_some_iff.mp h
      have ih := replay_standing recs hrest
      obtain ⟨e, he, rfl⟩ := Option.map_eq_some_iff.mp hone
      by_cases hlow : r.raftIndex ≤ n.log.base
      · have hskip : recordedConfig E n.log.base r = none := if_pos hlow
        rw [List.filterMap_cons_none hskip, ih, if_pos (show r.raftIndex ≤ n.log.baseIndex from hlow)]
      · have hset : (n.log.set r.raftIndex e).base = n.log.base := by
          unfold Log.set
          split
          · rfl
          · split <;> rfl
        have hread : recordedConfig E n.log.base r = e.config := by
          rw [recordedConfig, if_neg hlow, he, Option.bind_some]
        rw [if_neg (show ¬ r.raftIndex ≤ n.log.baseIndex from hlow)] at ih
        cases hcfg : e.config with
        | none =>
          rw [hcfg] at hread
          simp only [hcfg] at ih
          rw [List.filterMap_cons_none hread, ih, hset]
          rfl
        | some cfg =>
          rw [hcfg] at hread
          simp only [hcfg] at ih
          obtain ⟨known, hreg⟩ := Node.registerPeers_eq cfg.addrs { n with
            log := n.log.set r.raftIndex e, peers := cfg.voters.filter fun id => id ≠ n.id }
          rw [hreg] at ih
          rw [List.filterMap_cons_some hread, ih, hset, List.getLast?_cons]
          cases (recs.filterMap (recordedConfig E n.log.base)).getLast? <;> rfl
    next => cases h

/-- **A restart** that ends with a running node has the voters found on disk; nothing was applied
and nothing saved. -/
theorem Setup.reopen_standing {K : Setup σ} {n m : Node σ} (h : K.reopen E n = some m) :
    m.applied = n.applied ∧ m.savedMeta = n.savedMeta ∧ SameVoters m.voters (K.stored E n) := by
  rw [Setup.reopen_eq] at h
  obtain ⟨start, hstart, h⟩ := Option.bind_eq_some_iff.mp h
  obtain ⟨m₁, hreplay, rfl⟩ := Option.map_eq_some_iff.mp h
  have hst : start.standing = (K.disk n).standing ∧
      start.log.base = (n.snapshot.map Snapshot.lastIncludedIndex).getD 0 := by
    unfold Setup.restored at hstart
    cases hsnap : n.snapshot with
    | none =>
      rw [hsnap] at hstart
      cases hstart
      exact ⟨rfl, rfl⟩
    | some snap =>
      rw [hsnap] at hstart
      obtain ⟨_, -, rfl⟩ := Option.map_eq_some_iff.mp hstart
      exact ⟨rfl, rfl⟩
  have hm := replay_standing n.wal hreplay
  rw [hst.2] at hm
  have hid : m₁.id = K.id :=
    (congrArg Standing.id hm).trans (congrArg Standing.id hst.1)
  have happlied : m₁.applied = n.applied :=
    (congrArg Standing.applied hm).trans (congrArg Standing.applied hst.1)
  have hsaved : m₁.savedMeta = n.savedMeta :=
    (congrArg Standing.savedMeta hm).trans (congrArg Standing.savedMeta hst.1)
  unfold Setup.settle Setup.stored
  cases hmeta : n.savedMeta with
  | some saved =>
    refine ⟨happlied, hsaved.trans hmeta, ?_⟩
    exact sameVoters_split m₁.id saved.voters
  | none =>
    refine ⟨happlied, hsaved.trans hmeta, ?_⟩
    have hremoved : m₁.removed = false :=
      (congrArg Standing.removed hm).trans (congrArg Standing.removed hst.1)
    have hpeers := congrArg Standing.peers hm
    have hstart : start.id = K.id ∧ start.peers = K.peers :=
      ⟨congrArg Standing.id hst.1, congrArg Standing.peers hst.1⟩
    change m₁.peers = (Option.map _ _).getD start.peers at hpeers
    rw [hstart.1, hstart.2] at hpeers
    change SameVoters (if m₁.removed = true then m₁.peers else m₁.id :: m₁.peers) _
    rw [hremoved, hid, hpeers, if_neg (by decide), sameVoters_iff]
    intro id
    dsimp only
    cases (n.wal.filterMap (recordedConfig E _)).getLast? with
    | none => rfl
    | some cfg =>
      by_cases hid : id = K.id
      · simp [hid]
      · simp [hid]

/-! ## 5. Runs -/

/-- A node; the configurations in the prefix of its latest installed snapshot; and the indices
written to its meta store, newest first. -/
structure Member (σ : Type) where
  node : Node σ
  covered : List Placed
  metas : List ℕ

/-- An event, with the outcomes of the durable writes, and with the configurations in the log that
an InstallSnapshot stands for. -/
structure Occurrence where
  event : Event
  writes : List WriteOutcome := []
  saves : List Bool := []
  skipped : List Placed := []

/-- `HandleInstallSnapshot` gets to installing. -/
def Node.installs (E : Env σ) (n : Node σ) : Event → Bool
  | .installSnapshot args => n.currentTerm ≤ args.term && n.lastApplied < args.lastIncludedIndex &&
      (E.install n.fsm args.data).isSome
  | _ => false

def Node.coming (E : Env σ) (n : Node σ) (ev : Event) : List Placed :=
  match n.applying E ev with
  | none => []
  | some m => m.pending (m.commitIndex - m.lastApplied)

/-- The indices an event writes to the meta store. -/
def Node.metaWritten (E : Env σ) (n : Node σ) (ev : Event) : List ℕ :=
  match n.applying E ev with
  | none => []
  | some m => m.metaWrites E (m.commitIndex - m.lastApplied)

namespace Member

/-- The node with the outcomes of its next writes. -/
def facing (s : Member σ) (o : Occurrence) : Node σ :=
  { s.node with writes := o.writes, saves := o.saves }

/-- What can happen: a snapshot covers what is at or below its last included index, and a restart
ends with a running node. -/
def Possible (E : Env σ) (K : Setup σ) (s : Member σ) (o : Occurrence) : Prop :=
  match o.event with
  | .installSnapshot args => ∀ c ∈ o.skipped, c.1 ≤ args.lastIncludedIndex
  | .restart => (K.reopen E (s.facing o)).isSome
  | _ => True

def life (E : Env σ) (K : Setup σ) : Machine (Member σ) Occurrence where
  enabled := Possible E K
  act := fun s o =>
    { node := (s.facing o).hear E K o.event
      covered := if (s.facing o).installs E o.event then o.skipped else s.covered
      metas := ((s.facing o).metaWritten E o.event).reverse ++ s.metas }

def boot (K : Setup σ) : Member σ := { node := K.boot, covered := [], metas := [] }

/-- The configuration with the highest index among those applied and those covered. -/
def newestConfig (s : Member σ) : Option Placed := newest (configsOf s.node.applied ++ s.covered)

/-- The voters of a configuration; before the first one, those the node was started with. -/
def votersOf (K : Setup σ) : Option Placed → List String
  | none => K.id :: K.peers
  | some c => c.2.voters

/-- **The newest configuration applied is on record.**  A meta file names its index, and nothing
else was applied there; without a meta file its record is the last one of a configuration in the
write-ahead log above the snapshot, and it lists the node; before the first configuration there is
no such record. -/
def Recorded (E : Env σ) (K : Setup σ) (s : Member σ) : Prop :=
  match s.node.savedMeta, newest (configsOf s.node.applied) with
  | some m, some b => m.index = b.1 ∧ ∀ c ∈ configsOf s.node.applied, c.1 = b.1 → c = b
  | some _, none => True
  -- `OpenRaftNode` takes the record, committed or not, and counts the node in
  | none, some b => (s.node.recordedConfigs E).getLast? = some b ∧ K.id ∈ b.2.voters
  | none, none => s.node.recordedConfigs E = []

/-- **The condition on a step**: an installed snapshot covers no configuration above the newest one
applied, a restart finds that one on record, and no older one is applied. -/
structure Current (E : Env σ) (K : Setup σ) (s : Member σ) (o : Occurrence) : Prop where
  install : (s.facing o).installs E o.event = true →
    ∀ c ∈ o.skipped, ∃ b ∈ newest (configsOf s.node.applied), c.1 ≤ b.1
  restart : o.event = .restart → s.Recorded E K
  ascending : ∀ c ∈ (s.facing o).coming E o.event, ∀ b ∈ s.newestConfig, b.1 ≤ c.1

/-- The invariant of runs: what is claimed; that the last index written is the one in the meta
store, every index written that of a configuration applied, and the voters saved with it that
configuration's; and that a snapshot vouches for nothing above the newest configuration applied. -/
structure Coherent (K : Setup σ) (s : Member σ) : Prop where
  voters : SameVoters s.node.voters (votersOf K s.newestConfig)
  metas : s.metas.Pairwise (· ≥ ·)
  saved : s.node.savedMeta.map CommittedMeta.index = s.metas.head?
  written : ∀ i ∈ s.metas, i ∈ (configsOf s.node.applied).map Prod.fst
  savedFrom : ∀ m ∈ s.node.savedMeta,
    ∃ c ∈ configsOf s.node.applied, c.1 = m.index ∧ c.2.voters = m.voters
  covered : ∀ c ∈ s.covered, ∃ b ∈ newest (configsOf s.node.applied), c.1 ≤ b.1

theorem Coherent.boot (K : Setup σ) : Coherent K (boot K) where
  voters := SameVoters.refl _
  metas := List.Pairwise.nil
  saved := rfl
  written := fun _ h => absurd h List.not_mem_nil
  savedFrom := fun _ h => by cases h
  covered := fun _ h => absurd h List.not_mem_nil

theorem Coherent.newestConfig_eq {K : Setup σ} {s : Member σ} (h : Coherent K s) :
    s.newestConfig = newest (configsOf s.node.applied) :=
  newest_covered _ _ h.covered

/-- **What is on record are the voters of the newest configuration.** -/
theorem Coherent.stored {K : Setup σ} {s : Member σ} (h : Coherent K s) (hrec : s.Recorded E K) :
    SameVoters (K.stored E s.node) (votersOf K s.newestConfig) := by
  rw [h.newestConfig_eq]
  unfold Recorded at hrec
  unfold Setup.stored
  cases hmeta : s.node.savedMeta with
  | some m =>
    obtain ⟨c, hc, hidx, hvoters⟩ := h.savedFrom m hmeta
    obtain ⟨b, hb⟩ : ∃ b, newest (configsOf s.node.applied) = some b := by
      refine Option.ne_none_iff_exists'.mp fun hnone => ?_
      rw [newest, List.argmax_eq_none] at hnone
      rw [hnone] at hc
      cases hc
    rw [hmeta, hb] at hrec
    obtain rfl := hrec.2 c hc (hidx.trans hrec.1)
    dsimp only
    rw [hb, ← hvoters]
    exact SameVoters.refl _
  | none =>
    rw [hmeta] at hrec
    dsimp only
    rw [s.node.recordedConfigs_last E]
    cases hb : newest (configsOf s.node.applied) with
    | none =>
      rw [hb] at hrec
      rw [show s.node.recordedConfigs E = [] from hrec]
      exact SameVoters.refl _
    | some b =>
      rw [hb] at hrec
      obtain ⟨hlast, hself⟩ := hrec
      rw [hlast]
      exact ⟨List.cons_subset.mpr ⟨hself, List.Subset.refl _⟩, List.subset_cons_self _ _⟩

theorem Coherent.written_le {K : Setup σ} {s : Member σ} (h : Coherent K s) {i : ℕ}
    (hi : i ∈ s.metas) : ∃ b, s.newestConfig = some b ∧ i ≤ b.1 := by
  obtain ⟨c, hc, rfl⟩ := List.mem_map.mp (h.written i hi)
  have hmem : c ∈ configsOf s.node.applied ++ s.covered := List.mem_append_left _ hc
  cases hb : s.newestConfig with
  | none =>
    rw [newestConfig, newest, List.argmax_eq_none] at hb
    rw [hb] at hmem
    cases hmem
  | some b => exact ⟨b, rfl, le_newest hb hmem⟩

theorem metaWritten_sublist (E : Env σ) (n : Node σ) (ev : Event) :
    (n.metaWritten E ev).Sublist ((n.coming E ev).map Prod.fst) := by
  unfold Node.metaWritten Node.coming
  cases n.applying E ev with
  | none => exact List.Sublist.refl _
  | some m => exact (Standing.Adopts.applyLoop E (m.commitIndex - m.lastApplied) m).writes

theorem coming_up (E : Env σ) (n : Node σ) (ev : Event) :
    (n.coming E ev).Pairwise fun x y => x.1 ≤ y.1 := by
  unfold Node.coming
  cases n.applying E ev with
  | none => exact List.Pairwise.nil
  | some m => exact m.pending_up _

theorem hear_adopts (E : Env σ) (K : Setup σ) (n : Node σ) {ev : Event} (hev : ev ≠ .restart) :
    Standing.Adopts (n.coming E ev) (n.metaWritten E ev) n.standing (n.hear E K ev).standing := by
  unfold Node.coming Node.metaWritten
  rcases n.hear_standing E K hev with ⟨m, happ, hst, heq⟩ | ⟨hnone, hst⟩
  · rw [happ, heq, ← hst]
    exact Standing.Adopts.applyLoop E (m.commitIndex - m.lastApplied) m
  · rw [hnone, hst]
    exact Standing.Adopts.refl _

section Step

variable {K : Setup σ} {s : Member σ} {o : Occurrence}

/-- The node after a restart has the voters that were on disk. -/
theorem Coherent.restarted (h : Coherent K s) (hposs : Possible E K s o) (hcur : Current E K s o)
    (hev : o.event = .restart) : Coherent K ((life E K).act s o) := by
  have hopen : (K.reopen E (s.facing o)).isSome := by
    simpa only [Possible, hev] using hposs
  obtain ⟨m, hm⟩ := Option.isSome_iff_exists.mp hopen
  obtain ⟨happlied, hsaved, hvoters⟩ := Setup.reopen_standing hm
  have hact : (life E K).act s o = { node := m, covered := s.covered, metas := s.metas } := by
    simp only [life, hev, Node.hear, hm, Option.getD_some]
    rfl
  have happlied : m.applied = s.node.applied := happlied
  have hsaved : m.savedMeta = s.node.savedMeta := hsaved
  rw [hact]
  constructor
  · change SameVoters m.voters (votersOf K (newest (configsOf m.applied ++ s.covered)))
    rw [happlied]
    exact hvoters.trans (h.stored (hcur.restart hev))
  · exact h.metas
  · rw [hsaved]
    exact h.saved
  · rw [happlied]
    exact h.written
  · rw [happlied, hsaved]
    exact h.savedFrom
  · rw [happlied]
    exact h.covered

/-- The voters after any other event: those of the last configuration applied, if one is. -/
theorem Coherent.voters_heard (h : Coherent K s) (hcur : Current E K s o)
    (hev : o.event ≠ .restart) :
    SameVoters ((s.facing o).hear E K o.event).voters
      (votersOf K ((life E K).act s o).newestConfig) := by
  have hadopts := hear_adopts E K (s.facing o) hev
  have hup := coming_up E (s.facing o) o.event
  have hasc := hcur.ascending
  refine hadopts.voters.trans ?_
  unfold newestConfig
  rw [show configsOf ((life E K).act s o).node.applied = _ from hadopts.applied]
  cases hlast : ((s.facing o).coming E o.event).getLast? with
  | none =>
    -- nothing is adopted: only the covered configurations can have changed
    rw [List.getLast?_eq_none_iff.mp hlast]
    change SameVoters s.node.voters (votersOf K (newest (configsOf s.node.applied ++
      if (s.facing o).installs E o.event then o.skipped else s.covered)))
    split
    next hinst =>
      rw [newest_covered _ _ (hcur.install hinst), ← h.newestConfig_eq]
      exact h.voters
    next => exact h.voters
  | some c =>
    have hno : (s.facing o).installs E o.event = false := by
      cases hev : o.event with
      | installSnapshot args =>
        rw [hev] at hlast
        cases hlast
      | _ => rfl
    have hmem : c ∈ (s.facing o).coming E o.event := List.mem_of_getLast? hlast
    have hnew : newest (((s.facing o).coming E o.event).reverse ++
        (configsOf s.node.applied ++ s.covered)) = some c := by
      refine newest_append (by rw [List.head?_reverse, hlast]) (List.pairwise_reverse.mpr hup) ?_
      intro d hd
      cases hb : s.newestConfig with
      | none =>
        rw [newestConfig, newest, List.argmax_eq_none] at hb
        rw [hb] at hd
        cases hd
      | some b => exact (le_newest hb hd).trans (hasc c hmem b hb)
    change SameVoters c.2.voters (votersOf K (newest
      (((s.facing o).coming E o.event).reverse ++ configsOf s.node.applied ++
        if (s.facing o).installs E o.event then o.skipped else s.covered)))
    rw [hno, if_neg (by decide), List.append_assoc, hnew]
    exact SameVoters.refl _

theorem Coherent.metas_heard (h : Coherent K s) (hcur : Current E K s o) :
    (((s.facing o).metaWritten E o.event).reverse ++ s.metas).Pairwise (· ≥ ·) := by
  have hsub := metaWritten_sublist E (s.facing o) o.event
  have hup : ((s.facing o).metaWritten E o.event).Pairwise (· ≤ ·) :=
    (List.pairwise_map.mpr (coming_up E (s.facing o) o.event)).sublist hsub
  refine List.pairwise_append.mpr ⟨List.pairwise_reverse.mpr hup, h.metas, fun w hw i hi => ?_⟩
  obtain ⟨c, hc, rfl⟩ := List.mem_map.mp (hsub.subset (List.mem_reverse.mp hw))
  obtain ⟨b, hb, hle⟩ := h.written_le hi
  exact hle.trans (hcur.ascending c hc b hb)

/-- **A step** that meets the condition keeps the invariant. -/
theorem Coherent.step (h : Coherent K s) (hposs : Possible E K s o) (hcur : Current E K s o) :
    Coherent K ((life E K).act s o) := by
  by_cases hev : o.event = .restart
  · exact h.restarted hposs hcur hev
  have hadopts := hear_adopts E K (s.facing o) hev
  have hsub := metaWritten_sublist E (s.facing o) o.event
  have happlied : configsOf ((s.facing o).hear E K o.event).applied =
      ((s.facing o).coming E o.event).reverse ++ configsOf s.node.applied := hadopts.applied
  refine ⟨h.voters_heard hcur hev, h.metas_heard hcur, ?_, ?_, ?_, ?_⟩
  · refine hadopts.saved.trans ?_
    change _ = (((s.facing o).metaWritten E o.event).reverse ++ s.metas).head?
    rw [List.head?_append, List.head?_reverse, ← h.saved]
    rfl
  · intro i hi
    change i ∈ (configsOf ((s.facing o).hear E K o.event).applied).map Prod.fst
    rw [happlied, List.map_append]
    rcases List.mem_append.mp hi with hi | hi
    · refine List.mem_append_left _ ?_
      rw [List.map_reverse, List.mem_reverse]
      exact hsub.subset (List.mem_reverse.mp hi)
    · exact List.mem_append_right _ (h.written i hi)
  · intro m hm
    change ∃ c ∈ configsOf ((s.facing o).hear E K o.event).applied, _
    rw [happlied]
    rcases hadopts.savedFrom m hm with hm | ⟨c, hc, heq⟩
    · obtain ⟨c, hc, heq⟩ := h.savedFrom m hm
      exact ⟨c, List.mem_append_right _ hc, heq⟩
    · exact ⟨c, List.mem_append_left _ (List.mem_reverse.mpr hc), heq⟩
  · intro c hc
    have hold : ∃ b ∈ newest (configsOf s.node.applied), c.1 ≤ b.1 := by
      change c ∈ (if (s.facing o).installs E o.event then o.skipped else s.covered) at hc
      split at hc
      next hinst => exact hcur.install hinst c hc
      next => exact h.covered c hc
    obtain ⟨b, hb, hle⟩ := hold
    change ∃ b ∈ newest (configsOf ((s.facing o).hear E K o.event).applied), c.1 ≤ b.1
    rw [happlied]
    obtain ⟨b', hb', hle'⟩ := newest_mono (List.subset_append_right _ _) hb
    exact ⟨b', hb', hle.trans hle'⟩

end Step

/-- **The voters are those of the newest configuration.**  In every run of a node from its first
start -- any requests and replies, any proposals, compaction, installed snapshots and restarts, any
outcome of its durable writes -- whose steps meet `Current`: in every state the voter set is that
of the highest-index configuration applied or covered by the latest installed snapshot, and the
indices written to the meta store have never gone down. -/
theorem voters_coherent (E : Env σ) (K : Setup σ) {s : Member σ}
    (hrun : ((life E K).restrict (Current E K)).Steps (boot K) s) :
    SameVoters s.node.voters (votersOf K s.newestConfig) ∧ s.metas.Pairwise (· ≥ ·) := by
  have hstep : ∀ s o, Coherent K s → ((life E K).restrict (Current E K)).enabled s o →
      Coherent K ((life E K).act s o) := fun _ _ hinv ho => hinv.step ho.1 ho.2
  have h : Coherent K s := hrun.invariant hstep (Coherent.boot K)
  exact ⟨h.voters, h.metas⟩

instance (E : Env σ) (K : Setup σ) (s : Member σ) (o : Occurrence) :
    Decidable (Possible E K s o) := by
  unfold Possible
  split <;> infer_instance

instance (E : Env σ) (K : Setup σ) (s : Member σ) : Decidable (Recorded E K s) := by
  unfold Recorded
  split <;> infer_instance

instance (E : Env σ) (K : Setup σ) (s : Member σ) (o : Occurrence) : Decidable (Current E K s o) :=
  decidable_of_iff
    (((s.facing o).installs E o.event = true →
        ∀ c ∈ o.skipped, ∃ b ∈ newest (configsOf s.node.applied), c.1 ≤ b.1) ∧
      (o.event = .restart → s.Recorded E K) ∧
      ∀ c ∈ (s.facing o).coming E o.event, ∀ b ∈ s.newestConfig, b.1 ≤ c.1)
    ⟨fun ⟨h₁, h₂, h₃⟩ => ⟨h₁, h₂, h₃⟩, fun h => ⟨h.install, h.restart, h.ascending⟩⟩

instance (E : Env σ) (K : Setup σ) (s : Member σ) (o : Occurrence) :
    Decidable (((life E K).restrict (Current E K)).enabled s o) :=
  inferInstanceAs (Decidable (Possible E K s o ∧ Current E K s o))

instance (E : Env σ) (K : Setup σ) (s : Member σ) (o : Occurrence) :
    Decidable ((life E K).enabled s o) :=
  inferInstanceAs (Decidable (Possible E K s o))

/-! ## 6. Runs of one server -/

/-- `d` joins the cluster of `a`, `b` and `c`. -/
def withD : Configuration := { voters := ["b", "a", "c", "d"] }

/-- And `c` leaves. -/
def withoutC : Configuration := { voters := ["b", "a", "d"] }

/-- `b` leads term 1; its log starts with its no-op and the addition of `d`, committed. -/
def dJoins : Occurrence where
  event := .appendEntries
    { term := 1, leaderID := "b", prevLogIndex := 0, prevLogTerm := 0
      entries := [{ term := 1 }, { term := 1, config := some withD }], leaderCommit := 2 }

/-- Then `b` removes `c`. -/
def cLeaves : Occurrence where
  event := .appendEntries
    { term := 1, leaderID := "b", prevLogIndex := 2, prevLogTerm := 1
      entries := [{ term := 1, config := some withoutC }], leaderCommit := 3 }

/-- `d` leads term 2; it has not heard yet that index 3 is committed. -/
def dLeads : Occurrence where
  event := .appendEntries
    { term := 2, leaderID := "d", prevLogIndex := 3, prevLogTerm := 1
      entries := [{ term := 2 }], leaderCommit := 2 }

/-- `b` has compacted its log up to the addition of `d`, and `a` gets the snapshot instead. -/
def snapshotWithD : Occurrence where
  event := .installSnapshot
    { term := 1, leaderID := "b", lastIncludedIndex := 2, lastIncludedTerm := 1, data := [] }
  skipped := [(2, withD)]

/-- The state of server `a` after the occurrences. -/
def after (os : List Occurrence) : Member Unit :=
  (life codeEnv serverA).play (boot serverA) (os.map fun o _ => o)

/-- All four routes: `d` joins and the meta save fails, so the restart takes the configuration from
the write-ahead log; it is applied once more and saved, and the next restart takes it from the meta
file; then a snapshot is installed that covers it. -/
def fourRoutes : List Occurrence :=
  [{ dJoins with saves := [false] }, { event := .restart }, dJoins, { event := .restart },
    { event := .installSnapshot
        { term := 1, leaderID := "b", lastIncludedIndex := 3, lastIncludedTerm := 1, data := [] }
      skipped := [(2, withD)] }]

theorem voters_coherent_again :
    (SameVoters (after fourRoutes).node.voters
      (votersOf serverA (after fourRoutes).newestConfig) ∧
      (after fourRoutes).metas.Pairwise (· ≥ ·)) ∧
    (after fourRoutes).metas = [2] ∧ (after fourRoutes).covered = [(2, withD)] :=
  ⟨voters_coherent codeEnv serverA (Machine.steps_of_plays (fourRoutes.map fun o _ => o)
      (boot serverA) (by decide +kernel)), by decide +kernel, by decide +kernel⟩

/-- `d` joins and `c` leaves; `a` restarts, hears from `d` that index 2 is committed, applies the
configuration there, and counts `c` as a voter again.  The meta store goes from index 3 to 2.
And after a snapshot `a` does not know of `d`. -/
theorem voters_coherent_fails :
    (life codeEnv serverA).Steps (boot serverA)
      (after [dJoins, cLeaves, { event := .restart }, dLeads]) ∧
    ¬ SameVoters (after [dJoins, cLeaves, { event := .restart }, dLeads]).node.voters
      (votersOf serverA (after [dJoins, cLeaves, { event := .restart }, dLeads]).newestConfig) ∧
    (after [dJoins, cLeaves, { event := .restart }, dLeads]).metas = [2, 3, 2] ∧
    (life codeEnv serverA).Steps (boot serverA) (after [snapshotWithD]) ∧
    ¬ SameVoters (after [snapshotWithD]).node.voters
      (votersOf serverA (after [snapshotWithD]).newestConfig) :=
  ⟨Machine.steps_of_plays ([dJoins, cLeaves, { event := .restart }, dLeads].map fun o _ => o)
      (boot serverA) (by decide +kernel), by decide +kernel, by decide +kernel,
    Machine.steps_of_plays ([snapshotWithD].map fun o _ => o) (boot serverA) (by decide +kernel),
    by decide +kernel⟩

end Member

end Cachey.Raft
