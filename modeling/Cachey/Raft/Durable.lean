/-
# One node, its log and its disk

A node appends every entry to the write-ahead log before the entry enters its memory, and saves a
snapshot before it forgets the entries below it.  The write-ahead log is append-only: that a tail
was cut, or given up for a snapshot, is not written down.  This file follows ONE node through any
sequence of calls -- any requests with any contents, any replies, any proposals, restarts -- and
says when recovery gives the log back.

* `EntryView` is what is compared: term, configuration, and of a command its operation, key, value
  and expiry.  `kept` is what recovery makes of an entry: not every command survives, because a
  command that decodes to a no-op or a configuration record is taken for one.
* `solo` is the machine: the node's critical sections, driven by `Event`s, with every log-store
  write and the save of an installed snapshot successful.
* `Kept` is the invariant: snapshot and base belong together, and the entries above the base are
  a list kept in a journal (`Journal.Durable`), the write-ahead log.
* `recovery_faithful_iff`: recovery gives the log back exactly when every record is readable,
  every entry survives, and the log does NOT end at its base while the write-ahead log still has
  records above it.  Such records are those of a tail that was given up; recovery resurrects them.

One thing is asked of the messages: `Log.consistent`.  `HandleAppendEntries` decides what to write
by comparing terms with the log BEFORE it is cut, so an entry that agrees in term with the entry
about to be cut away is not written.  Leaders that keep one term at one index agree on everything
below never send that.
-/
import Cachey.Lib.Journal
import Cachey.Raft.Handling
import Cachey.Wal.Codec

namespace Cachey.Raft

open Wal (Op Record)

/-! ## 1. What survives a restart -/

/-- What is compared of an entry. -/
structure EntryView where
  term : ℕ
  config : Option Configuration
  command : Option (Option (Op × String × String × Int))
deriving DecidableEq

/-- The laws of the JSON codecs, and of the state machine's snapshots: what was taken, or installed
once, can be installed. -/
structure Env.Lawful {σ : Type} (E : Env σ) : Prop where
  decode_encode : ∀ r, E.decode (E.encode r) = some r
  decodeConfig_encodeConfig : ∀ cfg, E.decodeConfig (E.encodeConfig cfg) = some cfg
  install_taken : ∀ fsm fsm' data, E.take fsm = some data → (E.install fsm' data).isSome
  install_again : ∀ fsm fsm' data, (E.install fsm data).isSome → (E.install fsm' data).isSome

variable {σ : Type} {E : Env σ} {r : Record}

/-- The operation, key, value and expiry of a command; the term and the configuration. -/
def Entry.view (E : Env σ) (e : Entry) : EntryView where
  term := e.term
  config := e.config
  command := e.command.map fun c => (E.decode c).map fun r => (r.op, r.key, r.val, r.exp)

/-- What recovery makes of a record; `none` is an error that ends the recovery. -/
def recovered (E : Env σ) (r : Record) : Option EntryView :=
  if r.op.known then (Node.recoveredEntry E r).map (Entry.view E) else none

/-- What recovery makes of an entry that was written. -/
def Entry.kept (E : Env σ) (e : Entry) : Option EntryView :=
  (Node.record E 0 e).bind (recovered E)

/-- The entry is written as what it is: a configuration has no command beside it, and a command is
a record of the state machine. -/
def Entry.storable (E : Env σ) (e : Entry) : Bool :=
  match e.config, e.command with
  | some _, command => command.isNone
  | none, some c =>
    match E.decode c with
    | none => false
    | some r => r.op.known && r.op ≠ .noop && r.op ≠ .config
  | none, none => true

def readable (E : Env σ) (r : Record) : Bool :=
  r.op.known && (r.op ≠ .config || (E.decodeConfig r.config).isSome)

theorem isSome_recovered (r : Record) : (recovered E r).isSome = readable E r := by
  cases hop : r.op <;>
    simp [recovered, readable, hop, Op.known, Node.recoveredEntry]

theorem recovered_command (hE : E.Lawful) (hnoop : r.op ≠ .noop) (hconfig : r.op ≠ .config)
    (hknown : r.op.known = true) :
    recovered E r = some ⟨r.term, none, some (some (r.op, r.key, r.val, r.exp))⟩ := by
  have hentry : Node.recoveredEntry E r = some { term := r.term, command := some (E.encode r) } := by
    unfold Node.recoveredEntry
    split
    next h => exact absurd h hconfig
    next h => exact absurd h hnoop
    next => rfl
  simp [recovered, hknown, hentry, Entry.view, hE.decode_encode]

variable {e : Entry}

/-- The record written for an entry is recovered as the entry is kept, whatever its index. -/
theorem recovered_of_record (hE : E.Lawful) {i : ℕ} (h : Node.record E i e = some r) :
    recovered E r = e.kept E ∧ r.raftIndex = i := by
  unfold Entry.kept
  unfold Node.record at h ⊢
  cases hcfg : e.config with
  | some cfg =>
    simp only [hcfg, Option.some.injEq] at h ⊢
    subst h
    exact ⟨rfl, rfl⟩
  | none =>
    cases hcmd : e.command with
    | none =>
      simp only [hcfg, hcmd, Option.some.injEq] at h ⊢
      subst h
      exact ⟨rfl, rfl⟩
    | some c =>
      simp only [hcfg, hcmd] at h ⊢
      obtain ⟨r₀, hr₀, rfl⟩ := Option.map_eq_some_iff.mp h
      simp only [hr₀, Option.map_some, Option.bind_some]
      refine ⟨?_, trivial⟩
      by_cases hknown : r₀.op.known = true
      · by_cases hnoop : r₀.op = .noop
        · simp [recovered, Node.recoveredEntry, hnoop]
        by_cases hconfig : r₀.op = .config
        · simp [recovered, Node.recoveredEntry, hconfig]
        have hany : ∀ i, recovered E { r₀ with term := e.term, raftIndex := i } =
            some ⟨e.term, none, some (some (r₀.op, r₀.key, r₀.val, r₀.exp))⟩ :=
          fun i => recovered_command (r := { r₀ with term := e.term, raftIndex := i }) hE hnoop
            hconfig hknown
        exact (hany i).trans (hany 0).symm
      · simp [recovered, hknown]

/-- What recovery has made of a record, the next recovery makes of it again. -/
theorem kept_of_recoveredEntry (hE : E.Lawful) (hknown : r.op.known = true)
    (h : Node.recoveredEntry E r = some e) : e.kept E = some (e.view E) := by
  by_cases hconfig : r.op = .config
  · simp only [Node.recoveredEntry, hconfig, Option.map_eq_some_iff] at h
    obtain ⟨cfg, -, rfl⟩ := h
    simp [Entry.kept, Node.record, recovered, Op.known, Node.recoveredEntry,
      hE.decodeConfig_encodeConfig, Entry.view]
  by_cases hnoop : r.op = .noop
  · simp only [Node.recoveredEntry, hnoop, Option.some.injEq] at h
    subst h
    simp [Entry.kept, Node.record, recovered, Op.known, Node.recoveredEntry, Entry.view]
  have hentry : e = { term := r.term, command := some (E.encode r) } := by
    unfold Node.recoveredEntry at h
    split at h
    next h' => exact absurd h' hconfig
    next h' => exact absurd h' hnoop
    next => exact (Option.some.inj h).symm
  subst hentry
  have hrec : Node.record E 0 { term := r.term, command := some (E.encode r) } =
      some { r with term := r.term, raftIndex := 0 } := by
    simp [Node.record, hE.decode_encode]
  rw [Entry.kept, hrec, Option.bind_some, recovered_command
    (r := { r with term := r.term, raftIndex := 0 }) hE hnoop hconfig hknown]
  simp [Entry.view, hE.decode_encode]

theorem kept_eq_view_iff (hE : E.Lawful) (e : Entry) :
    e.kept E = some (e.view E) ↔ e.storable E = true := by
  cases hcfg : e.config with
  | some cfg =>
    cases hcmd : e.command with
    | none =>
      simp [Entry.kept, Node.record, hcfg, hcmd, recovered, Op.known, Node.recoveredEntry,
        hE.decodeConfig_encodeConfig, Entry.view, Entry.storable]
    | some c =>
      simp [Entry.kept, Node.record, hcfg, hcmd, recovered, Op.known, Node.recoveredEntry,
        hE.decodeConfig_encodeConfig, Entry.view, Entry.storable]
  | none =>
    cases hcmd : e.command with
    | none =>
      simp [Entry.kept, Node.record, hcfg, hcmd, recovered, Op.known, Node.recoveredEntry,
        Entry.view, Entry.storable]
    | some c =>
      cases hdec : E.decode c with
      | none => simp [Entry.kept, Node.record, hcfg, hcmd, hdec, Entry.storable]
      | some r =>
        by_cases hknown : r.op.known = true
        · by_cases hnoop : r.op = .noop
          · simp [Entry.kept, Node.record, hcfg, hcmd, hdec, recovered, Node.recoveredEntry,
              Entry.view, Entry.storable, hnoop, Op.known]
          by_cases hconfig : r.op = .config
          · cases hd : E.decodeConfig r.config <;>
              simp [Entry.kept, Node.record, hcfg, hcmd, hdec, recovered, Node.recoveredEntry,
                Entry.view, Entry.storable, hconfig, Op.known, hd]
          · simp [Entry.kept, Node.record, hcfg, hcmd, hdec,
              recovered_command hE (r := { r with term := e.term, raftIndex := 0 }) hnoop hconfig
                hknown, Entry.view, Entry.storable, hknown, hnoop, hconfig]
        · simp [Entry.kept, Node.record, hcfg, hcmd, hdec, recovered, Entry.storable, hknown]

/-! ## 2. One node and whatever it hears -/

/-- The log has an entry of that term at that index. -/
def Log.has (l : Log) (idx : ℕ) (e : Entry) : Bool := idx ≤ l.lastIndex ∧ l.termAt idx = e.term

/-- It has none of the entries. -/
def Log.lacks (l : Log) : (idx : ℕ) → List Entry → Bool
  | _, [] => true
  | idx, e :: es => !l.has idx e && l.lacks (idx + 1) es

/-- Of the entries from `idx` on the log has the first few, and behind the first one it does not
have it has none. -/
def Log.consistent (l : Log) : (idx : ℕ) → List Entry → Bool
  | _, [] => true
  | idx, e :: es => if l.has idx e then l.consistent (idx + 1) es else l.lacks (idx + 1) es

/-- What can happen to a node. -/
inductive Event where
  | requestVote (args : RequestVote)
  | appendEntries (args : AppendEntries)
  | installSnapshot (args : InstallSnapshot)
  | timeout
  | voteReply (term : ℕ) (reply : RequestVoteReply)
  | promote (term : ℕ)
  | propose (command : Option Bytes)
  | addServer (id addr : String)
  | removeServer (id : String)
  | appendReply (peer : String) (args : AppendEntries) (reply : AppendEntriesReply)
  | snapshotReply (peer : String) (args : InstallSnapshot) (reply : InstallSnapshotReply)
  | heartbeatReply (reply : AppendEntriesReply)
  | resign
  | restart
deriving DecidableEq

/-- What `OpenRaftNode` is given: the identity, the configured peers, the compaction threshold, the
empty state machine and the address the node listens at. -/
structure Setup (σ : Type) where
  id : String
  peers : List String
  threshold : ℕ
  fsm : σ
  bound : String

def Setup.fresh (K : Setup σ) : Node σ :=
  newNode K.id K.peers K.threshold K.fsm false false false

/-- `OpenRaftNode` on the data of `old`. -/
def Setup.reopen (E : Env σ) (K : Setup σ) (old : Node σ) : Option (Node σ) :=
  Node.openRaftNode E K.fresh K.bound old

/-- The node after its first start, on an empty directory. -/
def Setup.boot (K : Setup σ) : Node σ :=
  { K.fresh with
    logStore := true, snapshotStore := true, metaStore := true
    addrs := K.fresh.addrs.insert K.id K.bound }

namespace Node

def hear (E : Env σ) (K : Setup σ) (n : Node σ) : Event → Node σ
  | .requestVote args => (n.handleRequestVote args).1
  | .appendEntries args => (n.handleAppendEntries E args).1
  | .installSnapshot args => (n.handleInstallSnapshot E args).1
  | .timeout => n.becomeCandidate.1
  | .voteReply term reply => (n.onVoteReply term reply).1
  | .promote term => (n.tryBecomeLeader E term).1
  | .propose command => (n.propose E command).1
  | .addServer id addr => (n.addServer E id addr).1
  | .removeServer id => (n.removeServer E id).1
  | .appendReply peer args reply => n.onAppendReply E peer args reply
  | .snapshotReply peer args reply => n.onSnapshotReply E peer args reply
  | .heartbeatReply reply => (n.onHeartbeatReply reply).1
  | .resign => n.resign
  | .restart => (K.reopen E n).getD n

/-- The event comes about: every entry of an accepted request can be written, the snapshot of an
InstallSnapshot is saved, and a restart ends with a running node. -/
def succeeds (E : Env σ) (K : Setup σ) (n : Node σ) : Event → Bool
  | .appendEntries args =>
    !n.accepts args || ((n.followLeader args.term args.leaderID).persistLoop E
      (args.prevLogIndex + 1) args.entries).2
  | .installSnapshot _ => n.saves.headD true
  | .restart => (K.reopen E n).isSome
  | _ => true

/-- The entries of an accepted request are consistent with the log. -/
def Consistent (n : Node σ) : Event → Bool
  | .appendEntries args =>
    !n.accepts args || n.log.consistent (args.prevLogIndex + 1) args.entries
  | _ => true

/-- The node before an event: no log-store write of it fails; `saves` are the outcomes of the
other writes. -/
def facing (saves : List Bool) (n : Node σ) : Node σ := { n with writes := [], saves := saves }

end Node

/-- One node: events, each with the outcomes of its snapshot and meta saves. -/
def solo (E : Env σ) (K : Setup σ) : Machine (Node σ) (Event × List Bool) where
  enabled := fun n l => (n.facing l.2).succeeds E K l.1 = true
  act := fun n l => (n.facing l.2).hear E K l.1

/-- The node in runs without inconsistent requests. -/
def soloConsistent (E : Env σ) (K : Setup σ) : Machine (Node σ) (Event × List Bool) :=
  (solo E K).restrict fun n l => (n.facing l.2).Consistent l.1 = true

/-! ## 3. The log is kept in the write-ahead log

Each function writes the record of an entry before the entry enters the log, so along every call the
log above its base is a list kept in a journal.  Cutting the log is a write at a lower index, and
compaction and snapshots move the base: both are operations of `Journal.Durable`. -/

/-- The write-ahead log as a journal of what recovery makes of its records. -/
def Node.journal (E : Env σ) (n : Node σ) : List (ℕ × Option EntryView) :=
  n.wal.map fun r => (r.raftIndex, recovered E r)

def Log.tail (l : Log) : List Entry := l.entries.tail

/-- The log, the snapshot and the write-ahead log belong together. -/
structure Node.Kept (E : Env σ) (n : Node σ) : Prop where
  logStore : n.logStore = true
  snapshotStore : n.snapshotStore = true
  entries : n.log.entries ≠ []
  applied : n.log.base ≤ n.lastApplied
  base : n.log.base = (n.snapshot.map Snapshot.lastIncludedIndex).getD 0
  installs : ∀ snap, n.snapshot = some snap → ∀ fsm, (E.install fsm snap.data).isSome
  durable : Journal.Durable n.log.base (n.log.tail.map (Entry.kept E)) (n.journal E)

namespace Log

variable {l : Log}

theorem lastIndex_eq (h : l.entries ≠ []) : l.lastIndex = l.base + l.tail.length := by
  have := List.length_pos_of_ne_nil h
  unfold lastIndex tail
  rw [List.length_tail]
  omega

@[simp] theorem base_append (l : Log) (e : Entry) : (l.append e).base = l.base := rfl

theorem tail_append (h : l.entries ≠ []) (e : Entry) : (l.append e).tail = l.tail ++ [e] := by
  exact List.tail_append_of_ne_nil h

theorem base_compact (l : Log) (i t : ℕ) : (l.compact i t).base = i := by
  unfold compact
  split <;> rfl

theorem entries_compact (l : Log) (i t : ℕ) : (l.compact i t).entries ≠ [] := by
  unfold compact
  split <;> exact List.cons_ne_nil _ _

theorem tail_compact (h : l.entries ≠ []) {i : ℕ} (t : ℕ) (hi : l.base ≤ i) :
    (l.compact i t).tail = l.tail.drop (i - l.base) := by
  have hlast := lastIndex_eq h
  unfold compact
  split
  next hge =>
    refine (List.drop_eq_nil_iff.mpr ?_).symm
    omega
  next =>
    unfold tail
    rw [List.tail_cons, List.drop_tail]

end Log

namespace Node.Kept

variable {n : Node σ} {e : Entry}

theorem facing (h : n.Kept E) (saves : List Bool) : (n.facing saves).Kept E := { h with }

/-! ### Applying -/

theorem maybeCompactLocked (hE : E.Lawful) (h : n.Kept E) : (n.maybeCompactLocked E).Kept E := by
  rcases maybeCompactLocked_cases E n with ⟨saves, heq⟩ | ⟨hlt, saves, snapshot, heq, hsnap⟩
  · rw [heq]
    exact { h with }
  · rcases hsnap with ⟨-, hno⟩ | ⟨-, data, htake, rfl⟩
    · rw [h.snapshotStore] at hno
      cases hno
    · rw [heq]
      refine
        { logStore := h.logStore
          snapshotStore := h.snapshotStore
          entries := Log.entries_compact _ _ _
          applied := (Log.base_compact _ _ _).le
          base := Log.base_compact _ _ _
          installs := ?_
          durable := ?_ }
      · rintro snap ⟨⟩ fsm
        exact hE.install_taken _ _ _ htake
      · have hdur := h.durable.rebase hlt.le
        rw [← List.map_drop, ← Log.tail_compact h.entries (n.log.termAt n.lastApplied) hlt.le] at hdur
        rw [Log.base_compact]
        exact hdur

theorem applyNext (hE : E.Lawful) (h : n.Kept E) : (n.applyNext E).Kept E := by
  have happlied := h.applied
  unfold Node.applyNext
  dsimp only
  have hstep : ∀ fsm journal, Kept E { n with
      lastApplied := n.lastApplied + 1, fsm := fsm, applied := journal } :=
    fun _ _ => { h with applied := by dsimp only; omega }
  split
  · obtain ⟨_, _, _, _, _, heq, -⟩ := applyConfigLocked_cases _ (n.lastApplied + 1) _
    rw [heq]
    exact { h with applied := by dsimp only; omega }
  · exact (hstep _ _).maybeCompactLocked hE
  · exact hstep n.fsm _

theorem applyLoop (hE : E.Lawful) : ∀ (turns : ℕ) {n : Node σ}, n.Kept E →
    (Node.applyLoop E turns n).Kept E
  | 0, _, h => h
  | turns + 1, _, h => applyLoop hE turns (h.applyNext hE)

theorem updateCommitIndexLocked (hE : E.Lawful) (h : n.Kept E) :
    (n.updateCommitIndexLocked E).Kept E := by
  unfold Node.updateCommitIndexLocked
  obtain ⟨commit, heq, -⟩ :=
    commitLoop_cases (n.log.lastIndex - n.commitIndex) (n.commitIndex + 1) n
  rw [heq]
  exact applyLoop hE _ { h with }

/-! ### Writing -/

/-- A write that cannot fail: the record is appended, or the entry has none. -/
theorem persist_cases (hlog : n.logStore = true) (hw : n.writes = []) (idx : ℕ) (e : Entry) :
    n.persistEntryLocked E idx e = (n, false) ∨ ∃ r, Node.record E idx e = some r ∧
      n.persistEntryLocked E idx e = ({ n with wal := n.wal ++ [r] }, true) := by
  unfold Node.persistEntryLocked
  rw [if_neg (by simp [hlog])]
  cases hrec : Node.record E idx e with
  | none => exact Or.inl rfl
  | some r =>
    refine Or.inr ⟨r, rfl, ?_⟩
    simp [hw]

theorem journal_append (n : Node σ) (rs : List Record) :
    ({ n with wal := n.wal ++ rs } : Node σ).journal E =
      n.journal E ++ rs.map fun r => (r.raftIndex, recovered E r) :=
  List.map_append

theorem append (hE : E.Lawful) (h : n.Kept E) {r : Record}
    (hrec : Node.record E (n.log.lastIndex + 1) e = some r) :
    Kept E { n with wal := n.wal ++ [r], log := n.log.append e } := by
  obtain ⟨hkept, hidx⟩ := recovered_of_record hE hrec
  have hlast := Log.lastIndex_eq h.entries
  refine { h with entries := by simp [Log.append], durable := ?_ }
  have hdur := h.durable.write (i := r.raftIndex) (e.kept E) (by omega)
    (by rw [List.length_map]; omega)
  rw [List.take_of_length_le (by rw [List.length_map]; omega)] at hdur
  rw [Log.tail_append h.entries, List.map_append]
  have hjournal : Node.journal E { n with wal := n.wal ++ [r], log := n.log.append e } =
      n.journal E ++ [(r.raftIndex, e.kept E)] := by
    simp [Node.journal, hkept]
  rw [hjournal]
  exact hdur

theorem addEntry (hE : E.Lawful) (h : n.Kept E) (hw : n.writes = []) (e : Entry) :
    (n.addEntry E e).1.Kept E := by
  unfold Node.addEntry
  rcases persist_cases h.logStore hw (n.log.lastIndex + 1) e with heq | ⟨r, hrec, heq⟩
  · rw [heq]
    exact h
  · rw [heq]
    exact h.append hE hrec

theorem submit (hE : E.Lawful) (h : n.Kept E) {result : Except Error (Node σ × Entry)}
    (hok : ∀ m e, result = .ok (m, e) → m.Kept E ∧ m.writes = []) :
    (n.submit E result).1.Kept E := by
  unfold Node.submit
  split
  next => exact h
  next m e =>
    obtain ⟨hm, hw⟩ := hok m e rfl
    have hadd := hm.addEntry hE hw e
    unfold Node.appendEntryLocked
    cases hcase : m.addEntry E e with
    | mk m' done =>
      rw [hcase] at hadd
      cases done with
      | false => exact hadd
      | true => exact hadd.updateCommitIndexLocked hE

theorem tryBecomeLeader (hE : E.Lawful) (h : n.Kept E) (hw : n.writes = []) (term : ℕ) :
    (n.tryBecomeLeader E term).1.Kept E := by
  unfold Node.tryBecomeLeader
  split
  next => exact h
  next =>
    have htake : (n.takeOffice E term).1.Kept E := by
      unfold Node.takeOffice
      split
      next => exact h
      next =>
        dsimp only
        rcases persist_cases h.logStore hw (n.log.lastIndex + 1) { term := term } with heq | ⟨r, hrec, heq⟩
        · rw [heq]
          exact h
        · rw [heq]
          have happ := h.append hE hrec
          exact { happ with }
    cases hcase : n.takeOffice E term with
    | mk m done =>
      rw [hcase] at htake
      cases done with
      | false => exact htake
      | true => exact htake.updateCommitIndexLocked hE

theorem commitIf (hE : E.Lawful) : ∀ {x : Node σ × Bool}, x.1.Kept E → (Node.commitIf E x).Kept E
  | (_, true), h => h.updateCommitIndexLocked hE
  | (_, false), h => h

/-! ### The follower -/

theorem persistLoop_lacks (hE : E.Lawful) : ∀ (es : List Entry) (idx : ℕ) {n n₁ : Node σ},
    n.logStore = true → n.writes = [] → n.log.lacks idx es = true →
    n.persistLoop E idx es = (n₁, true) → ∃ rs : List Record,
      n₁ = { n with wal := n.wal ++ rs } ∧
      rs.map (fun r => (r.raftIndex, recovered E r)) =
        ((es.map (Entry.kept E)).zipIdx idx).map fun x => (x.2, x.1)
  | [], _, n, n₁, _, _, _, hloop => by
    cases hloop
    exact ⟨[], by simp, rfl⟩
  | e :: es, idx, n, n₁, hlog, hw, hlacks, hloop => by
    simp only [Log.lacks, Bool.and_eq_true, Bool.not_eq_true'] at hlacks
    obtain ⟨hhas, hrest⟩ := hlacks
    unfold Node.persistLoop at hloop
    rw [if_neg (by simpa [Log.has] using hhas)] at hloop
    rcases persist_cases hlog hw idx e with heq | ⟨r, hrec, heq⟩
    · rw [heq] at hloop
      cases hloop
    · rw [heq] at hloop
      obtain ⟨hkept, hidx⟩ := recovered_of_record hE hrec
      obtain ⟨rs, rfl, hrs⟩ := persistLoop_lacks hE es (idx + 1)
        (n := { n with wal := n.wal ++ [r] }) hlog hw hrest hloop
      refine ⟨r :: rs, by simp, ?_⟩
      simp [hrs, hkept, hidx]

theorem appendLoop_end : ∀ (es : List Entry) (idx : ℕ) (n : Node σ), n.log.entries ≠ [] →
    n.log.lastIndex < idx →
    n.appendLoop idx es = { n with log := { n.log with entries := n.log.entries ++ es } }
  | [], _, n, _, _ => by simp [Node.appendLoop]
  | e :: es, idx, n, hne, hlt => by
    unfold Node.appendLoop
    rw [if_neg (by omega)]
    have hlast : (n.log.append e).lastIndex < idx + 1 := by
      rw [Log.lastIndex_eq (l := n.log.append e) (by simp [Log.append]), Log.tail_append hne,
        List.length_append]
      have := Log.lastIndex_eq hne
      simp
      omega
    rw [appendLoop_end es (idx + 1) { n with log := n.log.append e } (by simp [Log.append]) hlast]
    simp [Log.append]

/-- Entries the log does not have replace what it has from the first of them on. -/
theorem appendLoop_lacks {n : Node σ} (hne : n.log.entries ≠ []) (es : List Entry) {idx : ℕ}
    (hlo : n.log.base < idx) (hhi : idx ≤ n.log.lastIndex + 1) (hhas : n.log.has idx e = false) :
    ∃ applied commit cuts,
      n.appendLoop idx (e :: es) = { n with
        log := { n.log with entries := n.log.entries.take (idx - n.log.base) ++ e :: es }
        lastApplied := applied, commitIndex := commit, truncated := cuts } ∧
      (n.log.base ≤ n.lastApplied → n.log.base ≤ applied) := by
  have hlen := Log.lastIndex_eq hne
  have htail : n.log.entries.length = n.log.tail.length + 1 := by
    have := List.length_pos_of_ne_nil hne
    simp [Log.tail]
    omega
  unfold Node.appendLoop
  by_cases hin : idx ≤ n.log.lastIndex
  · have hterm : n.log.termAt idx ≠ e.term := by
      intro heq
      simp [Log.has, hin, heq] at hhas
    rw [if_pos hin, if_pos hterm, overwrite_eq _ _ _ (by omega)]
    have hcut : ((n.log.truncate idx).append e).entries =
        n.log.entries.take (idx - n.log.base) ++ [e] := rfl
    have hend : ((n.log.truncate idx).append e).lastIndex < idx + 1 := by
      unfold Log.lastIndex
      rw [hcut, List.length_append, List.length_take]
      change n.log.base + _ - 1 < idx + 1
      simp
      omega
    rw [appendLoop_end es (idx + 1) _ (by simp [hcut]) hend]
    refine ⟨min n.lastApplied (idx - 1), min n.commitIndex (idx - 1),
      (idx, n.commitIndex) :: n.truncated, ?_, fun h => by omega⟩
    simp [Log.append, Log.truncate]
  · rw [if_neg hin]
    have hend : (n.log.append e).lastIndex < idx + 1 := by
      rw [Log.lastIndex_eq (l := n.log.append e) (by simp [Log.append]), Log.tail_append hne]
      simp
      omega
    rw [appendLoop_end es (idx + 1) _ (by simp [Log.append]) hend,
      List.take_of_length_le (by omega)]
    refine ⟨n.lastApplied, n.commitIndex, n.truncated, ?_, fun h => h⟩
    simp [Log.append]

theorem appendLoop (hE : E.Lawful) : ∀ (es : List Entry) (idx : ℕ) {n n₁ : Node σ}, n.Kept E →
    n.writes = [] → n.log.base < idx → idx ≤ n.log.lastIndex + 1 →
    n.log.consistent idx es = true → n.persistLoop E idx es = (n₁, true) →
    (n₁.appendLoop idx es).Kept E
  | [], _, _, _, h, _, _, _, _, hloop => by
    cases hloop
    exact h
  | e :: es, idx, n, n₁, h, hw, hlo, hhi, hcons, hloop => by
    by_cases hhas : n.log.has idx e = true
    · -- the log has the entry: neither loop does anything with it
      have hin : idx ≤ n.log.lastIndex ∧ n.log.termAt idx = e.term := by simpa [Log.has] using hhas
      rw [Log.consistent, if_pos hhas] at hcons
      rw [Node.persistLoop, if_pos hin] at hloop
      have hih := appendLoop hE es (idx + 1) h hw (by omega) (by omega) hcons hloop
      have hsame : n₁.log = n.log := by
        obtain ⟨_, _, heq⟩ := persistLoop_logged E es (idx + 1) n
        rw [hloop] at heq
        have hn₁ : n₁ = _ := heq
        rw [hn₁]
      unfold Node.appendLoop
      rw [hsame, if_pos hin.1, if_neg (fun hne => hne hin.2)]
      exact hih
    · rw [Bool.not_eq_true] at hhas
      rw [Log.consistent, if_neg (by simp [hhas])] at hcons
      obtain ⟨rs, rfl, hrs⟩ := persistLoop_lacks hE (e :: es) idx h.logStore hw
        (by simp [Log.lacks, hhas, hcons]) hloop
      obtain ⟨applied, commit, cuts, heq, happlied⟩ := appendLoop_lacks
        (n := { n with wal := n.wal ++ rs }) h.entries es hlo hhi hhas
      rw [heq]
      have hlen := Log.lastIndex_eq h.entries
      obtain ⟨d, tail, hentries⟩ := List.exists_cons_of_ne_nil h.entries
      obtain ⟨k, hk⟩ : ∃ k, idx - n.log.base = k + 1 := ⟨idx - n.log.base - 1, by omega⟩
      refine { h with
        entries := by simp
        applied := happlied h.applied
        durable := ?_ }
      have hdur := h.durable.writes (i := idx) hlo (by rw [List.length_map]; omega)
        ((e :: es).map (Entry.kept E)) (by simp)
      rw [← hrs] at hdur
      have htail : Log.tail { n.log with
          entries := n.log.entries.take (idx - n.log.base) ++ e :: es } =
          n.log.tail.take (idx - n.log.base - 1) ++ e :: es := by
        simp [Log.tail, hentries, hk]
      change Journal.Durable n.log.base ((Log.tail { n.log with
          entries := n.log.entries.take (idx - n.log.base) ++ e :: es }).map _) _
      rw [htail, List.map_append, List.map_take]
      have hjournal := journal_append (E := E) n rs
      exact hjournal ▸ hdur

theorem talked (h : n.Kept E) {m : Node σ} (ht : Talked n m) : m.Kept E := by
  obtain ⟨_, _, _, _, _, _, _, rfl⟩ := ht
  exact { h with }

theorem handleAppendEntries (hE : E.Lawful) (h : n.Kept E) (hw : n.writes = [])
    {args : AppendEntries} {K : Setup σ} (hok : n.succeeds E K (.appendEntries args) = true)
    (hcons : n.Consistent (.appendEntries args) = true) :
    (n.handleAppendEntries E args).1.Kept E := by
  have hfollow := h.talked (followLeader_talked args.term args.leaderID n)
  rcases n.handleAppendEntries_accepts E args with ⟨-, ⟨-, heq⟩ | ⟨-, heq⟩⟩ | ⟨haccepts, heq⟩
  · rwa [heq]
  · rwa [heq]
  rw [heq]
  obtain ⟨-, hshort, (hbase : n.log.base ≤ _), -⟩ := accepts_iff.mp haccepts
  simp only [Node.succeeds, haccepts, Bool.not_true, Bool.false_or] at hok
  simp only [Node.Consistent, haccepts, Bool.not_true, Bool.false_or] at hcons
  have hlog := (followLeader_talked args.term args.leaderID n).log
  have hwrites : (n.followLeader args.term args.leaderID).writes = n.writes := by
    obtain ⟨_, _, _, _, _, _, _, hsame⟩ := followLeader_talked args.term args.leaderID n
    rw [hsame]
  cases hloop : (n.followLeader args.term args.leaderID).persistLoop E (args.prevLogIndex + 1)
    args.entries with
  | mk n₁ done =>
    rw [hloop] at hok
    cases hok
    have happend := appendLoop hE args.entries (args.prevLogIndex + 1) hfollow
      (hwrites.trans hw) (by rw [hlog]; omega) (by rw [hlog]; omega)
      (by rw [hlog]; exact hcons) hloop
    unfold Node.takeEntries Node.applyCommittedLocked
    dsimp only
    split
    · exact applyLoop hE _ { happend with }
    · exact applyLoop hE _ happend

theorem handleInstallSnapshot (hE : E.Lawful) (h : n.Kept E) {args : InstallSnapshot}
    (hsave : n.saves.headD true = true) : (n.handleInstallSnapshot E args).1.Kept E := by
  have hfollow := h.talked (followLeader_talked args.term args.leaderID n)
  rcases n.handleInstallSnapshot_cases E args with ⟨-, heq⟩ | ⟨-, hcases⟩
  · rw [heq]
    exact h
  rcases hcases with heq | ⟨hlt, fsm, saves, snapshot, heq, hinstall, hsnap⟩
  · rw [heq]
    exact hfollow
  have hle : n.log.base ≤ args.lastIncludedIndex := h.applied.trans hlt.le
  rcases hsnap with ⟨-, hno⟩ | ⟨-, rfl⟩
  · rcases hno with hno | hno
    · rw [h.snapshotStore] at hno
      cases hno
    · rw [hsave] at hno
      cases hno
  rw [heq]
  have hjournal : (n.followLeader args.term args.leaderID).journal E = n.journal E := by
    obtain ⟨_, _, _, _, _, _, _, hsame⟩ := followLeader_talked args.term args.leaderID n
    rw [hsame]
    rfl
  refine
    { logStore := hfollow.logStore
      snapshotStore := hfollow.snapshotStore
      entries := ?_
      applied := (rebased_base args n.log).le
      base := rebased_base args n.log
      installs := ?_
      durable := ?_ }
  · unfold rebased
    split
    · exact List.cons_ne_nil _ _
    · exact Log.entries_compact _ _ _
  · rintro snap ⟨⟩ fsm'
    exact hE.install_again n.fsm fsm' _ (by rw [hinstall]; rfl)
  · change Journal.Durable (rebased args n.log).base ((rebased args n.log).tail.map _)
      ((n.followLeader args.term args.leaderID).journal E)
    rw [hjournal, rebased_base]
    unfold rebased
    split
    · exact h.durable.reset hle
    · rw [Log.tail_compact h.entries _ hle, List.map_drop]
      exact h.durable.rebase hle

end Node.Kept

/-! ## 4. Recovery

The replay sets entry after entry from the base of the snapshot on, which is `Journal.rebuild`.  It
cannot know where the log ended, only where the journal does. -/

namespace Log

theorem set_spec {l : Log} (h : l.entries ≠ []) {i : ℕ} (e : Entry) (hi : l.base < i) :
    (l.set i e).base = l.base ∧ (l.set i e).entries ≠ [] ∧
      (l.set i e).tail = l.tail.take (i - l.base - 1) ++ [e] := by
  obtain ⟨d, tail, hentries⟩ := List.exists_cons_of_ne_nil h
  obtain ⟨k, hk⟩ : ∃ k, i - l.base = k + 1 := ⟨i - l.base - 1, by omega⟩
  unfold set
  rw [if_neg (by omega)]
  split
  next => simp [Log.append, Log.truncate, Log.tail, hentries, hk]
  next hout =>
    have hlen : tail.length ≤ k := by
      rw [hentries, List.length_cons] at hout
      omega
    simp [Log.append, Log.tail, hentries, hk, List.take_of_length_le hlen]

end Log

namespace Node

/-- Every entry above the base is kept as it is seen. -/
def Recovered (E : Env σ) (n : Node σ) : Prop :=
  ∀ e ∈ n.log.tail, e.kept E = some (e.view E)

theorem applyRecoveredRecord_spec (hE : E.Lawful) {n : Node σ} (hne : n.log.entries ≠ [])
    (hrec : n.Recovered E) {r : Record} (hread : (recovered E r).isSome) :
    r.op.known = true ∧ ∃ peers addrs log, n.applyRecoveredRecord E r = some { n with
        peers := peers, addrs := addrs, log := log } ∧
      log.base = n.log.base ∧ log.entries ≠ [] ∧
      log.tail.map (Entry.kept E) = Journal.place n.log.base (n.log.tail.map (Entry.kept E))
        (r.raftIndex, recovered E r) ∧
      ∀ e ∈ log.tail, e.kept E = some (e.view E) := by
  have hknown : r.op.known = true := by
    by_contra hno
    simp [recovered, hno] at hread
  refine ⟨hknown, ?_⟩
  cases hentry : recoveredEntry E r with
  | none => simp [recovered, hentry] at hread
  | some e =>
    have hkept := kept_of_recoveredEntry hE hknown hentry
    have hview : recovered E r = e.kept E := by rw [hkept]; simp [recovered, hknown, hentry]
    unfold applyRecoveredRecord
    rw [hentry, Option.map_some]
    by_cases hbase : r.raftIndex ≤ n.log.baseIndex
    · rw [if_pos hbase, Journal.place_of_le hbase]
      exact ⟨n.peers, n.addrs, n.log, rfl, rfl, hne, rfl, hrec⟩
    · have hlt : n.log.base < r.raftIndex := not_le.mp hbase
      obtain ⟨hb, hn, htail⟩ := Log.set_spec hne e hlt
      rw [if_neg hbase, Journal.place_of_lt hlt]
      have hlog : (n.log.set r.raftIndex e).tail.map (Entry.kept E) =
          (n.log.tail.map (Entry.kept E)).take (r.raftIndex - n.log.base - 1) ++
            [recovered E r] := by
        rw [htail, List.map_append, List.map_take, hview]
        rfl
      have hall : ∀ x ∈ (n.log.set r.raftIndex e).tail, x.kept E = some (x.view E) := by
        intro x hx
        rw [htail] at hx
        rcases List.mem_append.mp hx with hx | hx
        · exact hrec x (List.mem_of_mem_take hx)
        · rw [List.mem_singleton.mp hx]
          exact hkept
      split
      · exact ⟨n.peers, n.addrs, _, rfl, hb, hn, hlog, hall⟩
      · exact ⟨_, _, _, rfl, hb, hn, hlog, hall⟩

/-- **The replay.**  It succeeds on readable records, and rebuilds the journal's list. -/
theorem replay_spec (hE : E.Lawful) : ∀ (recs : List Record) {n : Node σ}, n.log.entries ≠ [] →
    n.Recovered E → (∀ r ∈ recs, (recovered E r).isSome) → ∃ peers addrs log,
      n.replay E recs = some { n with peers := peers, addrs := addrs, log := log } ∧
      log.base = n.log.base ∧ log.entries ≠ [] ∧
      log.tail.map (Entry.kept E) = (recs.map fun r => (r.raftIndex, recovered E r)).foldl
        (Journal.place n.log.base) (n.log.tail.map (Entry.kept E)) ∧
      ∀ e ∈ log.tail, e.kept E = some (e.view E)
  | [], n, hne, hrec, _ => ⟨n.peers, n.addrs, n.log, rfl, rfl, hne, rfl, hrec⟩
  | r :: recs, n, hne, hrec, hread => by
    obtain ⟨hknown, peers, addrs, log, heq, hb, hn, htail, hall⟩ :=
      applyRecoveredRecord_spec hE hne hrec (hread r List.mem_cons_self)
    obtain ⟨peers', addrs', log', heq', hb', hn', htail', hall'⟩ := replay_spec hE recs
      (n := { n with peers := peers, addrs := addrs, log := log }) hn hall
      fun r' hr' => hread r' (List.mem_cons_of_mem _ hr')
    refine ⟨peers', addrs', log', ?_, hb'.trans hb, hn', ?_, hall'⟩
    · rw [Node.replay, if_pos hknown, heq]
      exact heq'
    · rw [htail']
      rw [hb, htail]
      rfl

theorem replay_unreadable {recs : List Record} (h : ∃ r ∈ recs, recovered E r = none) :
    ∀ n : Node σ, n.replay E recs = none := by
  induction recs with
  | nil => simp at h
  | cons r recs ih =>
    intro n
    cases hread : recovered E r with
    | none =>
      unfold Node.replay
      split
      next hknown =>
        have hentry : recoveredEntry E r = none := by simpa [recovered, hknown] using hread
        simp [applyRecoveredRecord, hentry]
      next => rfl
    | some v =>
      have hlater : ∃ r' ∈ recs, recovered E r' = none := by
        obtain ⟨r', hr', hnone⟩ := h
        rcases List.mem_cons.mp hr' with rfl | hr'
        · rw [hread] at hnone
          cases hnone
        · exact ⟨r', hr', hnone⟩
      unfold Node.replay
      split
      next =>
        cases n.applyRecoveredRecord E r with
        | none => rfl
        | some m => exact ih hlater m
      next => rfl

end Node

namespace Setup

/-- The new node with the data of `old`. -/
def disk (K : Setup σ) (old : Node σ) : Node σ :=
  { K.fresh with
    wal := old.wal, snapshot := old.snapshot, savedMeta := old.savedMeta
    applied := old.applied, truncated := old.truncated }

/-- It, after `RestoreSnapshot`. -/
def restored (E : Env σ) (K : Setup σ) (old : Node σ) : Option (Node σ) :=
  match old.snapshot with
  | none => some (K.disk old)
  | some snap => (K.disk old).restoreSnapshot E snap

def settle (K : Setup σ) (saved : Option CommittedMeta) (n : Node σ) : Node σ :=
  let n := { n with
    logStore := true, snapshotStore := true, metaStore := true
    addrs := n.addrs.insert n.id K.bound }
  match saved with
  | none => n
  | some m => n.adoptCommittedMeta m

theorem reopen_eq (E : Env σ) (K : Setup σ) (old : Node σ) : K.reopen E old =
    (K.restored E old).bind fun n => (n.replay E old.wal).map (K.settle old.savedMeta) := by
  have hrest : ∀ n : Node σ, ((n.replay E old.wal).bind fun n =>
      some (K.settle old.savedMeta n)) = (n.replay E old.wal).map (K.settle old.savedMeta) := by
    intro n
    cases n.replay E old.wal <;> rfl
  rw [← funext hrest]
  unfold reopen Node.openRaftNode
  dsimp only
  split
  next hs =>
    rw [show K.restored E old = some (K.disk old) by simp [restored, hs]]
    rfl
  next snap hs =>
    rw [show K.restored E old = (K.disk old).restoreSnapshot E snap by simp [restored, hs]]
    rfl

variable {n : Node σ}

/-- Before the replay the log is empty, at the base it had. -/
theorem restored_spec (K : Setup σ) (h : n.Kept E) : ∃ start : Node σ,
    K.restored E n = some start ∧ start.log.base = n.log.base ∧ start.log.entries ≠ [] ∧
      start.log.tail = [] ∧ start.log.base ≤ start.lastApplied ∧ start.snapshot = n.snapshot ∧
      start.wal = n.wal := by
  have hbase := h.base
  unfold restored
  cases hs : n.snapshot with
  | none =>
    rw [hs] at hbase
    exact ⟨K.disk n, rfl, hbase.symm, List.cons_ne_nil _ _, rfl, le_refl _, hs, rfl⟩
  | some snap =>
    rw [hs] at hbase
    obtain ⟨fsm, hfsm⟩ := Option.isSome_iff_exists.mp (h.installs snap hs (K.disk n).fsm)
    refine ⟨_, by simp only [Node.restoreSnapshot, hfsm, Option.map_some]; rfl, ?_⟩
    exact ⟨hbase.symm, List.cons_ne_nil _ _, rfl, le_max_right _ _, hs, rfl⟩

theorem settle_kept (K : Setup σ) (saved : Option CommittedMeta)
    (h : Node.Kept E { n with logStore := true, snapshotStore := true }) :
    (K.settle saved n).Kept E ∧ (K.settle saved n).log = n.log := by
  cases saved with
  | none => exact ⟨{ h with }, rfl⟩
  | some m => exact ⟨{ h with }, rfl⟩

/-- `OpenRaftNode` on the data of a node that keeps its log: it fails on an unreadable record, and
otherwise the new log is the replay of the journal above the same base. -/
theorem reopen_spec (hE : E.Lawful) (K : Setup σ) (h : n.Kept E) :
    (∀ r ∈ n.wal, (recovered E r).isSome) ∧ (∃ m, K.reopen E n = some m ∧ m.Kept E ∧
      m.log.base = n.log.base ∧ m.Recovered E ∧
      m.log.tail.map (Entry.kept E) = Journal.rebuild n.log.base (n.journal E)) ∨
    (∃ r ∈ n.wal, recovered E r = none) ∧ K.reopen E n = none := by
  obtain ⟨start, hstart, hlog, hne, htail, happlied, hsnap, hwal⟩ := K.restored_spec h
  rw [reopen_eq, hstart, Option.bind_some]
  by_cases hread : ∀ r ∈ n.wal, (recovered E r).isSome
  · obtain ⟨peers, addrs, log, hreplay, hb, hn, hviews, hall⟩ := Node.replay_spec hE n.wal hne
      (by intro e he; rw [htail] at he; cases he) hread
    rw [htail, hlog] at hviews
    have hviews' : log.tail.map (Entry.kept E) = Journal.rebuild n.log.base (n.journal E) := hviews
    have hkept : Node.Kept E { start with
        peers := peers, addrs := addrs, log := log, logStore := true, snapshotStore := true } :=
      { logStore := rfl
        snapshotStore := rfl
        entries := hn
        applied := hb.trans_le happlied
        base := by
          rw [hsnap, hb, hlog, h.base]
        installs := fun snap hs => h.installs snap (hsnap ▸ hs)
        durable := by
          have hjournal : start.journal E = n.journal E := by simp [Node.journal, hwal]
          change Journal.Durable log.base (log.tail.map _) (start.journal E)
          rw [hjournal, hb, hlog, hviews']
          exact h.durable.recover }
    obtain ⟨hm, hlog'⟩ := K.settle_kept n.savedMeta
      (n := { start with peers := peers, addrs := addrs, log := log }) hkept
    refine Or.inl ⟨hread, _, by rw [hreplay]; rfl, hm, ?_⟩
    unfold Node.Recovered
    rw [hlog']
    exact ⟨hb.trans hlog, hall, hviews'⟩
  · have hbad : ∃ r ∈ n.wal, recovered E r = none := by
      by_contra hcon
      refine hread fun r hr => ?_
      rw [Option.isSome_iff_ne_none]
      exact fun hnone => hcon ⟨r, hr, hnone⟩
    refine Or.inr ⟨hbad, ?_⟩
    rw [Node.replay_unreadable hbad start]
    rfl

end Setup

/-! ## 5. Every run -/

theorem Setup.kept_boot (K : Setup σ) : K.boot.Kept E where
  logStore := rfl
  snapshotStore := rfl
  entries := List.cons_ne_nil _ _
  applied := le_refl _
  base := rfl
  installs := fun _ h => by cases h
  durable := Journal.Durable.nil 0

variable {K : Setup σ} {n : Node σ}

theorem Node.Kept.hear (hE : E.Lawful) (h : n.Kept E) (hw : n.writes = []) (ev : Event)
    (hok : n.succeeds E K ev = true) (hcons : n.Consistent ev = true) : (n.hear E K ev).Kept E := by
  cases ev with
  | requestVote args => exact h.talked (handleRequestVote_talked args n)
  | appendEntries args => exact h.handleAppendEntries hE hw hok hcons
  | installSnapshot args => exact h.handleInstallSnapshot hE hok
  | timeout => exact h.talked (becomeCandidate_talked n)
  | voteReply term reply => exact h.talked (onVoteReply_talked term reply n)
  | promote term => exact h.tryBecomeLeader hE hw term
  | propose command =>
    refine h.submit hE fun m e hres => ?_
    cases (proposed_ok hres).2
    exact ⟨h, hw⟩
  | addServer id addr =>
    refine h.submit hE fun m e hres => ?_
    obtain ⟨_, heq⟩ := (addition_ok hres).2
    cases heq
    exact ⟨{ h with }, hw⟩
  | removeServer id =>
    refine h.submit hE fun m e hres => ?_
    cases (removal_ok hres).2
    exact ⟨h, hw⟩
  | appendReply peer args reply =>
    exact Node.Kept.commitIf hE (h.talked (hearAppend_talked peer args reply n))
  | snapshotReply peer args reply =>
    exact Node.Kept.commitIf hE (h.talked (hearSnapshot_talked peer args reply n))
  | heartbeatReply reply => exact h.talked (onHeartbeatReply_talked reply n)
  | resign => exact { h with }
  | restart =>
    rcases K.reopen_spec hE h with ⟨-, m, hm, hkept, -⟩ | ⟨-, hnone⟩
    · simp only [Node.hear, hm, Option.getD_some]
      exact hkept
    · simp only [Node.hear, hnone, Option.getD_none]
      exact h

theorem Node.Kept.run (hE : E.Lawful) (hrun : (soloConsistent E K).Steps K.boot n) : n.Kept E :=
  hrun.invariant (fun _ l h hl => (h.facing l.2).hear hE rfl l.1 hl.1 hl.2) K.kept_boot

/-- Two logs agree: the base, the last index, and the entry at every index above the base. -/
def SameLog (E : Env σ) (l l' : Log) : Prop :=
  l'.base = l.base ∧ l'.lastIndex = l.lastIndex ∧
    ∀ i, l.base < i → i ≤ l.lastIndex → (l'.entryAt i).view E = (l.entryAt i).view E

theorem getD_of_lt {l : List Entry} {k : ℕ} (h : k < l.length) : l.getD k default = l[k] := by
  rw [List.getD_eq_getElem?_getD, List.getElem?_eq_getElem h]
  rfl

theorem sameLog_iff {l l' : Log} (hl : l.entries ≠ []) (hl' : l'.entries ≠ [])
    (hbase : l'.base = l.base) :
    SameLog E l l' ↔ l'.tail.map (Entry.view E) = l.tail.map (Entry.view E) := by
  obtain ⟨d, tail, hd⟩ := List.exists_cons_of_ne_nil hl
  obtain ⟨d', tail', hd'⟩ := List.exists_cons_of_ne_nil hl'
  have hentry : ∀ k, l.entryAt (l.base + 1 + k) = tail.getD k default := by
    intro k
    unfold Log.entryAt
    rw [hd, show l.base + 1 + k - l.base = k + 1 by omega, List.getD_cons_succ]
  have hentry' : ∀ k, l'.entryAt (l.base + 1 + k) = tail'.getD k default := by
    intro k
    unfold Log.entryAt
    rw [hd', hbase, show l.base + 1 + k - l.base = k + 1 by omega, List.getD_cons_succ]
  unfold SameLog
  rw [Log.lastIndex_eq hl, Log.lastIndex_eq hl']
  simp only [Log.tail, hd, hd', List.tail_cons]
  constructor
  · rintro ⟨-, hlen, hall⟩
    have hlen' : tail'.length = tail.length := by omega
    refine List.ext_getElem (by simp [hlen']) fun k h₁ h₂ => ?_
    rw [List.length_map] at h₁ h₂
    have hk := hall (l.base + 1 + k) (by omega) (by omega)
    rw [hentry, hentry', getD_of_lt h₁, getD_of_lt h₂] at hk
    simpa using hk
  · intro hmap
    have hlen : tail'.length = tail.length := by simpa using congrArg List.length hmap
    refine ⟨hbase, by omega, fun i hlo hhi => ?_⟩
    obtain ⟨k, rfl⟩ : ∃ k, i = l.base + 1 + k := ⟨i - l.base - 1, by omega⟩
    have h₂ : k < tail.length := by omega
    have h₁ : k < tail'.length := by omega
    have hk : (tail'.map (Entry.view E))[k]? = (tail.map (Entry.view E))[k]? := by rw [hmap]
    rw [hentry, hentry', getD_of_lt h₁, getD_of_lt h₂]
    simpa [h₁, h₂] using hk

/-- **When recovery gives the log back.**  In every run of a node in which the log-store writes
and the saves of installed snapshots succeed and the requests are consistent, and for a crash in
any state of it: the recovered log has the same base, last index and entries exactly when

* every record of the write-ahead log is readable,
* the log has an entry above its base, or no record of the write-ahead log is above the base,
* every entry above the base is storable. -/
theorem recovery_faithful_iff (E : Env σ) (hE : E.Lawful) (K : Setup σ) {n : Node σ}
    (hrun : (soloConsistent E K).Steps K.boot n) :
    (∃ m, K.reopen E n = some m ∧ SameLog E n.log m.log) ↔
      (∀ r ∈ n.wal, readable E r = true) ∧
      (n.log.lastIndex = n.log.base → ∀ r ∈ n.wal, r.raftIndex ≤ n.log.base) ∧
      ∀ e ∈ n.log.tail, e.storable E = true := by
  have h := Node.Kept.run hE hrun
  have hlast := Log.lastIndex_eq h.entries
  have hempty : n.log.lastIndex = n.log.base ↔ n.log.tail.map (Entry.kept E) = [] := by
    rw [List.map_eq_nil_iff, ← List.length_eq_zero_iff]
    omega
  have hstale : (∀ x ∈ n.journal E, x.1 ≤ n.log.base) ↔ ∀ r ∈ n.wal, r.raftIndex ≤ n.log.base := by
    simp [Node.journal]
  have hread : (∀ r ∈ n.wal, readable E r = true) ↔ ∀ r ∈ n.wal, (recovered E r).isSome := by
    simp only [isSome_recovered]
  have hstorable : (∀ e ∈ n.log.tail, e.storable E = true) ↔
      n.log.tail.map (Entry.kept E) = n.log.tail.map fun e => some (e.view E) := by
    simp only [← kept_eq_view_iff hE, List.map_inj_left]
  rw [hread, hempty, ← hstale, ← h.durable.rebuild_iff, hstorable]
  rcases K.reopen_spec hE h with ⟨hok, m, hm, hkept, hbase, hrec, htail⟩ | ⟨hbad, hnone⟩
  · have hviews : m.log.tail.map (Entry.kept E) = m.log.tail.map fun e => some (e.view E) :=
      List.map_congr_left hrec
    have hsome : ∀ l l' : List Entry, l'.map (Entry.view E) = l.map (Entry.view E) ↔
        (l'.map fun e => some (e.view E)) = l.map fun e => some (e.view E) := by
      intro l l'
      have hcomp : ∀ l : List Entry, (l.map fun e => some (e.view E)) =
          (l.map (Entry.view E)).map some := fun l => by simp
      rw [hcomp, hcomp]
      exact (List.map_injective_iff.mpr (Option.some_injective _)).eq_iff.symm
    have hsame := sameLog_iff (E := E) h.entries hkept.entries hbase
    rw [hsome, ← hviews, htail] at hsame
    constructor
    · rintro ⟨m', hm', hlog⟩
      cases hm.symm.trans hm'
      have heq := hsame.mp hlog
      by_cases hnil : n.log.tail.map (Entry.kept E) = []
      · have htail₀ := List.map_eq_nil_iff.mp hnil
        rw [htail₀] at heq ⊢
        exact ⟨hok, heq, rfl⟩
      · have hkeep := h.durable.kept hnil
        exact ⟨hok, hkeep, hkeep.symm.trans heq⟩
    · rintro ⟨-, hrebuild, hviews'⟩
      exact ⟨m, hm, hsame.mpr (hrebuild.trans hviews')⟩
  · constructor
    · rintro ⟨m, hm, -⟩
      rw [hnone] at hm
      cases hm
    · rintro ⟨hok, -⟩
      obtain ⟨r, hr, hno⟩ := hbad
      have hsome := hok r hr
      rw [hno] at hsome
      cases hsome

/-! ## 6. Two runs -/

/-- A configuration from its voters and its addresses, which must have distinct keys. -/
def configOf (x : List String × List (String × String)) : Option Configuration :=
  let addrs : List ((_ : String) × String) := x.2.map fun a => ⟨a.1, a.2⟩
  if h : (addrs.map Sigma.fst).Nodup then some { voters := x.1, addrs := ⟨addrs, h⟩ } else none

/-- Configurations: the voters, and the addresses as pairs. -/
def configCode : Code Configuration :=
  ((Code.list Code.text).pair (Code.list (Code.text.pair Code.text))).through
    (fun cfg => (cfg.voters, cfg.addrs.entries.map fun a => (a.1, a.2)))
    configOf
    (fun cfg => by
      have hback : (cfg.addrs.entries.map fun a => (a.1, a.2)).map
          (fun a => (⟨a.1, a.2⟩ : (_ : String) × String)) = cfg.addrs.entries := by
        simp [Function.comp_def]
      have hnodup : (cfg.addrs.entries.map Sigma.fst).Nodup := cfg.addrs.nodupKeys
      simp only [configOf, hback, hnodup, dif_pos])
    (fun {x cfg} h => by
      simp only [configOf] at h
      split at h
      next => cases h; simp [Function.comp_def]
      next => cases h)

/-- An environment with a trivial state machine and lawful codecs. -/
def codeEnv : Env Unit where
  apply := fun _ _ => ()
  take := fun _ => some []
  install := fun _ _ => some ()
  decode := Wal.recordCode.parse
  encode := Wal.recordCode.enc
  decodeConfig := configCode.parse
  encodeConfig := configCode.enc

theorem codeEnv_lawful : codeEnv.Lawful where
  decode_encode := Wal.recordCode.parse_enc
  decodeConfig_encodeConfig := configCode.parse_enc
  install_taken := fun _ _ _ _ => rfl
  install_again := fun _ _ _ _ => rfl

instance (K : Setup σ) (n : Node σ) (l : Event × List Bool) :
    Decidable ((soloConsistent E K).enabled n l) :=
  inferInstanceAs (Decidable (_ = true ∧ _ = true))

/-- Server `a` of a cluster with `b` and `c`. -/
def serverA : Setup Unit where
  id := "a"
  peers := ["b", "c"]
  threshold := 10
  fsm := ()
  bound := "a:1"

/-- `b` leads term 1 and sends two entries. -/
def twoFromB : Event := .appendEntries
  { term := 1, leaderID := "b", prevLogIndex := 0, prevLogTerm := 0
    entries := [{ term := 1 }, { term := 1 }], leaderCommit := 0 }

/-- `c` leads term 2; it has another entry at index 1, and sends a snapshot of it. -/
def snapshotFromC : Event := .installSnapshot
  { term := 2, leaderID := "c", lastIncludedIndex := 1, lastIncludedTerm := 2, data := [] }

/-- The entry of `c` behind its snapshot. -/
def oneFromC : Event := .appendEntries
  { term := 2, leaderID := "c", prevLogIndex := 1, prevLogTerm := 2
    entries := [{ term := 2 }], leaderCommit := 1 }

/-- The two entries of `b`, the snapshot of `c`. -/
def supersede : List (Node Unit → Event × List Bool) :=
  [fun _ => (twoFromB, []), fun _ => (snapshotFromC, [])]

def supersedeAndGrow : List (Node Unit → Event × List Bool) :=
  supersede ++ [fun _ => (oneFromC, [])]

/-- The state a schedule leads server `a` to. -/
def soloPlay (ms : List (Node Unit → Event × List Bool)) : Node Unit :=
  (soloConsistent codeEnv serverA).play serverA.boot ms

/-- Once the log has grown behind the snapshot, recovery gives it back. -/
theorem recovery_faithful_grown :
    (∃ m, serverA.reopen codeEnv (soloPlay supersedeAndGrow) = some m ∧
      SameLog codeEnv (soloPlay supersedeAndGrow).log m.log) ∧
    (soloPlay supersedeAndGrow).log.lastIndex = 2 :=
  ⟨(recovery_faithful_iff codeEnv codeEnv_lawful serverA
      (Machine.steps_of_plays supersedeAndGrow serverA.boot (by decide +kernel))).mpr
      ⟨by decide +kernel, by decide +kernel, by decide +kernel⟩, by decide +kernel⟩

/-- Right after the snapshot the log is empty above index 1.  Recovery skips the first record of
`b` and brings the second one back at index 2. -/
theorem recovery_faithful_fails :
    (soloConsistent codeEnv serverA).Steps serverA.boot (soloPlay supersede) ∧
    (soloPlay supersede).log.lastIndex = 1 ∧
    ¬ ∃ m, serverA.reopen codeEnv (soloPlay supersede) = some m ∧
      SameLog codeEnv (soloPlay supersede).log m.log := by
  have hnow : (soloPlay supersede).log.lastIndex = 1 := by decide +kernel
  refine ⟨Machine.steps_of_plays supersede serverA.boot (by decide +kernel), hnow, ?_⟩
  rintro ⟨m, hm, -, hlast, -⟩
  have hback : (serverA.reopen codeEnv (soloPlay supersede)).map (fun m => m.log.lastIndex) =
      some 2 := by decide +kernel
  rw [hm, Option.map_some, Option.some.injEq, hlast, hnow] at hback
  cases hback

end Cachey.Raft
