/-
# Recovery on what a crash leaves

A crash may cut the log at any byte, and it may come again while `Recover` is at work.

* §1  Replaying a file once more changes nothing: the tail has been repaired, and every record is
      at or below the last index by then.
* §2  A log cut anywhere (`torn_tail_exact`): the records that are complete are applied, a missing
      newline is put back, anything else of a record is cut off.
* §3  `Recover` interrupted between two file operations, any number of times
      (`recovery_reentrant`).  Between the rename of the merged log and the removal of the temporary
      one the records of the latter stand in both files.
-/
import Cachey.Wal.Append
import Mathlib.Logic.Relation

namespace Cachey.Wal

section Again

variable {σ : Type} {C : Codec} {H : Hooks σ} {path : File} {s s' t : Replay σ}

/-! ## 1. Once more -/

/-- A record that was taken is at or below the last index from then on. -/
theorem last_of_replayRecord {rec : Record} (h : replayRecord H path rec s = .ok s') :
    rec.logIndex ≤ s'.last ∧ s.last ≤ s'.last := by
  obtain ⟨-, hle, hdel⟩ := replayRecord_eq_ok.mp h
  unfold deliver at hdel
  split at hdel
  next heq =>
    split at hdel
    · cases hdel
    · cases hdel
      exact ⟨le_rfl, by dsimp only; omega⟩
  next hne =>
    cases hdel
    exact ⟨by omega, le_rfl⟩

theorem last_of_replayLines : ∀ (lines : List Bytes) (i : ℕ) {s : Replay σ},
    replayLines C H path i lines s = .ok s' → s.last ≤ s'.last
  | [], _, _, h => by
    cases h
    exact le_rfl
  | line :: lines, i, s, h => by
    unfold replayLines at h
    split at h
    · cases h
    split at h
    · cases h
    obtain ⟨s₁, h₁, h₂⟩ := bind_eq_ok.mp h
    exact (last_of_replayRecord h₁).2.trans (last_of_replayLines lines (i + 1) h₂)

/-- **Lines that were replayed are skipped** by whoever stands behind them. -/
theorem replayLines_again : ∀ (lines : List Bytes) (i : ℕ) {s : Replay σ},
    replayLines C H path i lines s = .ok s' → s'.last ≤ t.last →
    ∀ j, replayLines C H path j lines t = .ok t
  | [], _, _, _, _, _ => rfl
  | line :: lines, i, s, h, ht, j => by
    unfold replayLines at h ⊢
    split at h
    · cases h
    next hne =>
    rw [if_neg hne]
    split at h
    · cases h
    next rec hdec =>
    obtain ⟨s₁, h₁, h₂⟩ := bind_eq_ok.mp h
    have hrec := (last_of_replayRecord h₁).1
    have hlast := last_of_replayLines lines (i + 1) h₂
    refine bind_eq_ok.mpr ⟨t, replayRecord_eq_ok.mpr ?_, replayLines_again lines _ h₂ ht _⟩
    exact ⟨(replayRecord_eq_ok.mp h₁).1, by omega, if_neg (by omega)⟩

theorem replayWALFile_lines {lines : List Bytes} (hmarks : ∀ l ∈ lines, newline ∉ l)
    (hlines : ∀ i, replayLines C H path i lines s = .ok s') :
    replayWALFile C H path (Lines.join newline lines) s = .ok (s', Lines.join newline lines) := by
  rw [← List.append_nil (Lines.join newline lines)]
  exact (replayWALFile_join hmarks hlines).mpr ⟨[], rfl, rfl⟩

/-- **A replayed file is replayed in the same way again.** -/
theorem replayFile_again {file file' : Option Bytes}
    (h : replayFile C H path file s = .ok (s', file')) :
    replayFile C H path file' s = .ok (s', file') := by
  cases file with
  | none =>
    cases h
    rfl
  | some data =>
    obtain ⟨⟨s₁, data'⟩, hfile, hsame⟩ := map_eq_ok.mp h
    cases hsame
    obtain ⟨lines, rfl, hmarks, hlines⟩ := replayWALFile_ok hfile
    exact map_eq_ok.mpr ⟨_, replayWALFile_lines hmarks (hlines path), rfl⟩

end Again

/-! ## 2. A log cut anywhere

The file of some records, cut behind any byte.  A record whose text is there in full is applied even
if its newline is not: `replayWALFile` tries to decode the unfinished line before it gives it up. -/

def walFile (C : Codec) (rs : List Record) : Bytes := Lines.join newline (rs.map C.encode)

/-- Consecutive indices, from the one behind `last` on. -/
def Continues : ℕ → List Record → Prop
  | _, [] => True
  | last, r :: rs => r.logIndex = last + 1 ∧ Continues r.logIndex rs

/-- The records whose text lies inside the first `n` bytes of their file. -/
def inside (C : Codec) : List Record → ℕ → List Record
  | [], _ => []
  | r :: rs, n =>
    if n < (C.encode r).length then [] else r :: inside C rs (n - (C.encode r).length - 1)

/-- Where a replay stands when the store has taken the records, one after another. -/
def Replay.after {σ : Type} (H : Hooks σ) : List Record → Replay σ → Option (Replay σ)
  | [], s => some s
  | r :: rs, s => (H.applyRecord s.store r).bind fun store => after H rs ⟨r.logIndex, store⟩

section Torn

variable {σ : Type} {C : Codec} {H : Hooks σ} {path : File} {s s' : Replay σ} {r : Record}

theorem unmarked_encode (hC : C.Framed) (rs : List Record) :
    ∀ l ∈ rs.map C.encode, newline ∉ l := by
  intro l hl
  obtain ⟨r, -, rfl⟩ := List.mem_map.mp hl
  exact hC.one_line r

theorem last_of_after : ∀ {rs : List Record} {s : Replay σ}, Continues s.last rs →
    Replay.after H rs s = some s' → s'.last = s.last + rs.length
  | [], _, _, h => by
    cases h
    rfl
  | r :: rs, s, hcont, h => by
    obtain ⟨store, -, h⟩ := Option.bind_eq_some_iff.mp h
    rw [last_of_after hcont.2 h, List.length_cons]
    dsimp only
    rw [hcont.1]
    omega

theorem replayRecord_next (path : File) {store : σ} (hindex : r.logIndex = s.last + 1)
    (hknown : r.op.known = true) (happly : H.applyRecord s.store r = some store) :
    replayRecord H path r s = .ok ⟨r.logIndex, store⟩ := by
  refine replayRecord_eq_ok.mpr ⟨hknown, hindex.le, ?_⟩
  rw [deliver, if_pos hindex, happly]

theorem replayLines_next (hC : C.Framed) {s₁ : Replay σ} (hrec : replayRecord H path r s = .ok s₁)
    (lines : List Bytes) (i : ℕ) :
    replayLines C H path i (C.encode r :: lines) s = replayLines C H path (i + 1) lines s₁ := by
  rw [replayLines, if_neg (hC.not_empty r), hC.decode_encode]
  dsimp only
  rw [hrec]
  rfl

theorem inside_zero (hC : C.Framed) (rs : List Record) : inside C rs 0 = [] := by
  cases rs with
  | nil => rfl
  | cons r rs => exact if_pos (List.length_pos_of_ne_nil (hC.not_empty r))

theorem replay_cut (hC : C.Framed) {n : ℕ} (hn : n < (C.encode r).length) :
    replayWALFile C H path ((C.encode r).take n) s = .ok (s, []) := by
  have hmark : newline ∉ (C.encode r).take n := fun h => hC.one_line r (List.mem_of_mem_take h)
  have hnone : C.decode ((C.encode r).take n) = none :=
    hC.decode_initial (List.take_append_drop n _) (by rw [ne_eq, List.drop_eq_nil_iff]; omega)
  rw [replayWALFile_eq, Lines.split_unfinished hmark]
  change replayTail C H path _ _ s = _
  unfold replayTail
  dsimp only
  split
  next hnil => rw [hnil]
  next => rw [hnone, Nat.sub_self, List.take_zero]

theorem replay_unframed (hC : C.Framed) (hrec : replayRecord H path r s = .ok s') :
    replayWALFile C H path (C.encode r) s = .ok (s', walFile C [r]) := by
  rw [replayWALFile_eq, Lines.split_unfinished (hC.one_line r)]
  change replayTail C H path _ _ s = _
  rw [replayTail, if_neg (hC.not_empty r), hC.decode_encode]
  dsimp only
  rw [hrec]
  simp [Except.map, walFile]

/-- **A beginning of a log.**  The induction is on the records; the cut falls into the first one, or
right behind it, or further on. -/
theorem replay_torn (hC : C.Framed) : ∀ (rs : List Record) (n : ℕ) {s : Replay σ},
    Continues s.last rs → (∀ r ∈ inside C rs n, r.op.known = true) →
    Replay.after H (inside C rs n) s = some s' →
    replayWALFile C H path ((walFile C rs).take n) s = .ok (s', walFile C (inside C rs n))
  | [], n, s, _, _, hafter => by
    cases hafter
    rw [walFile, List.map_nil, Lines.join_nil, List.take_nil]
    rfl
  | r :: rs, n, s, hcont, hknown, hafter => by
    have hfile : walFile C (r :: rs) = C.encode r ++ newline :: walFile C rs := by
      rw [walFile, List.map_cons, Lines.join_cons]
      rfl
    rw [inside] at hknown hafter ⊢
    rw [hfile]
    split at hafter
    next hlt =>
      cases hafter
      rw [if_pos hlt, List.take_append_of_le_length hlt.le]
      exact replay_cut hC hlt
    next hge =>
      rw [if_neg hge] at hknown ⊢
      obtain ⟨store, happly, hafter⟩ := Option.bind_eq_some_iff.mp hafter
      have hrec := replayRecord_next path hcont.1 (hknown r List.mem_cons_self) happly
      have ih := replay_torn hC rs (n - (C.encode r).length - 1) (s := ⟨r.logIndex, store⟩) hcont.2
        (fun x hx => hknown x (List.mem_cons_of_mem _ hx)) hafter
      rcases Nat.eq_or_lt_of_le (Nat.le_of_not_lt hge) with heq | hgt
      · rw [← heq, Nat.sub_self, Nat.zero_sub, inside_zero hC] at hafter ⊢
        cases hafter
        rw [List.take_left]
        exact replay_unframed hC hrec
      · have htake : (C.encode r ++ newline :: walFile C rs).take n =
            walFile C [r] ++ (walFile C rs).take (n - (C.encode r).length - 1) := by
          obtain ⟨k, rfl⟩ : ∃ k, n = (C.encode r).length + (k + 1) :=
            ⟨n - (C.encode r).length - 1, by omega⟩
          rw [List.take_length_add_append, List.take_succ_cons, Nat.add_sub_cancel_left,
            Nat.add_sub_cancel]
          simp [walFile]
        rw [htake]
        refine (replayWALFile_join (unmarked_encode hC [r]) fun i => ?_).mpr ⟨_, ih, ?_⟩
        · exact replayLines_next hC hrec [] i
        · simp [walFile]

theorem replay_complete (path : File) (hC : C.Framed) {rs : List Record} (hcont : Continues s.last rs)
    (hknown : ∀ r ∈ rs, r.op.known = true) (hafter : Replay.after H rs s = some s') :
    (∀ i, replayLines C H path i (rs.map C.encode) s = .ok s') ∧
      replayWALFile C H path (walFile C rs) s = .ok (s', walFile C rs) := by
  have hlines : ∀ i, replayLines C H path i (rs.map C.encode) s = .ok s' := by
    induction rs generalizing s with
    | nil =>
      cases hafter
      exact fun _ => rfl
    | cons r rs ih =>
      obtain ⟨store, happly, hafter⟩ := Option.bind_eq_some_iff.mp hafter
      have hrec := replayRecord_next path hcont.1 (hknown r List.mem_cons_self) happly
      intro i
      rw [List.map_cons, replayLines_next hC hrec]
      exact ih hcont.2 (fun x hx => hknown x (List.mem_cons_of_mem _ hx)) hafter _
  exact ⟨hlines, replayWALFile_lines (unmarked_encode hC rs) hlines⟩

theorem continues_inside : ∀ (rs : List Record) (n : ℕ) {last : ℕ}, Continues last rs →
    Continues last (inside C rs n)
  | [], _, _, _ => trivial
  | r :: rs, n, last, h => by
    rw [inside]
    split
    · trivial
    · exact ⟨h.1, continues_inside rs _ h.2⟩

end Torn

/-- **Torn tails.**  Of a log cut behind `n` bytes exactly the complete records are applied, in
order; what is left is their file; and whatever is appended to it is replayed by a second call,
from the old last index or from the new one. -/
theorem torn_tail_exact {σ : Type} {C : Codec} (hC : C.Framed) (H : Hooks σ) (path : File)
    {rs : List Record} (n : ℕ) {s s' : Replay σ} (hcont : Continues s.last rs)
    (hknown : ∀ r ∈ inside C rs n, r.op.known = true)
    (hafter : Replay.after H (inside C rs n) s = some s') :
    replayWALFile C H path ((walFile C rs).take n) s = .ok (s', walFile C (inside C rs n)) ∧
      s'.last = s.last + (inside C rs n).length ∧
      ∀ more s'', Continues s'.last more → (∀ r ∈ more, r.op.known = true) →
        Replay.after H more s' = some s'' → ∀ start ∈ [s, s'],
          replayWALFile C H path (walFile C (inside C rs n) ++ walFile C more) start =
            .ok (s'', walFile C (inside C rs n) ++ walFile C more) := by
  have hin := continues_inside (C := C) rs n hcont
  have hlast := last_of_after hin hafter
  refine ⟨replay_torn hC rs n hcont hknown hafter, hlast, fun more s'' hmore hknown' hafter' => ?_⟩
  obtain ⟨hlines, -⟩ := replay_complete path hC hin hknown hafter
  obtain ⟨hlines', hfile'⟩ := replay_complete path hC hmore hknown' hafter'
  intro start hstart
  refine (replayWALFile_join (unmarked_encode hC _) ?_).mpr ⟨_, hfile', rfl⟩
  rcases List.mem_pair.mp hstart with rfl | rfl
  · exact hlines
  · exact replayLines_again _ 0 (hlines 0) le_rfl

def twoRecords : List Record :=
  [{ putRecord "a" with logIndex := 1 }, { putRecord "b" with logIndex := 2 }]

/-- The second record lacks its newline. -/
theorem torn_tail_exact_two :
    replayWALFile markedCodec recording .active
        ((walFile markedCodec twoRecords).take ((walFile markedCodec twoRecords).length - 1)) ⟨0, []⟩ =
      .ok (⟨2, twoRecords⟩, walFile markedCodec twoRecords) :=
  have hall : inside markedCodec twoRecords ((walFile markedCodec twoRecords).length - 1) =
      twoRecords := by decide +kernel
  have hnumbered : Continues (⟨0, []⟩ : Replay (List Record)).last twoRecords :=
    ⟨rfl, rfl, trivial⟩
  have hafter : Replay.after recording twoRecords ⟨0, []⟩ = some ⟨2, twoRecords⟩ := rfl
  have h := torn_tail_exact markedCodec_lawful.toFramed recording .active
    ((walFile markedCodec twoRecords).length - 1) hnumbered (by rw [hall]; decide)
    (hall.symm ▸ hafter)
  by
    rw [hall] at h
    exact h.1

/-- A record of an operation that `validateRec` does not list is written by the writer as any other;
the replay of its file fails. -/
theorem torn_tail_membership :
    Continues 0 [({ op := .membership, logIndex := 1 } : Record)] ∧
      replayWALFile markedCodec recording .active
        (walFile markedCodec [({ op := .membership, logIndex := 1 } : Record)]) ⟨0, []⟩ =
          .error (.unknownOp .membership .active) :=
  ⟨⟨rfl, trivial⟩, by decide +kernel⟩

/-! ## 3. `Recover`, interrupted -/

/-- What `Recover` leaves of a directory when it is interrupted behind one of its file
operations. -/
inductive Interrupted {σ : Type} (C : Codec) (H : Hooks σ) (store : σ) (d : Dir) : Dir → Prop
  | untouched : Interrupted C H store d d
  | cleaned : Interrupted C H store d { d with snapshotTmp := none }
  | active {s s₁ : Replay σ} {active : Option Bytes}
      (hload : loadSnapshot C H d.snapshot store = .ok s)
      (hactive : replayFile C H .active d.active s = .ok (s₁, active)) :
      Interrupted C H store d { d with snapshotTmp := none, active := active }
  | tmp {s s₁ s₂ : Replay σ} {active tmp : Option Bytes}
      (hload : loadSnapshot C H d.snapshot store = .ok s)
      (hactive : replayFile C H .active d.active s = .ok (s₁, active))
      (htmp : replayFile C H .tmp d.tmp s₁ = .ok (s₂, tmp)) :
      Interrupted C H store d { d with snapshotTmp := none, active := active, tmp := tmp }
  -- any beginning of the two logs may have been copied
  | copying {s s₁ s₂ : Replay σ} {active : Option Bytes} {tmp copied : Bytes}
      (hload : loadSnapshot C H d.snapshot store = .ok s)
      (hactive : replayFile C H .active d.active s = .ok (s₁, active))
      (htmp : replayFile C H .tmp d.tmp s₁ = .ok (s₂, some tmp))
      (hcopied : copied <+: active.getD [] ++ tmp) :
      Interrupted C H store d { d with
        snapshotTmp := none, active := active, tmp := some tmp, rebuildTmp := some copied }
  | renamed {s s₁ s₂ : Replay σ} {active : Option Bytes} {tmp : Bytes}
      (hload : loadSnapshot C H d.snapshot store = .ok s)
      (hactive : replayFile C H .active d.active s = .ok (s₁, active))
      (htmp : replayFile C H .tmp d.tmp s₁ = .ok (s₂, some tmp)) :
      Interrupted C H store d { d with
        snapshotTmp := none, active := some (active.getD [] ++ tmp), tmp := some tmp,
        rebuildTmp := none }
  | done {s : Replay σ} {d' : Dir} (h : recover C H d store = .ok (s, d')) :
      Interrupted C H store d d'

section Interrupted

variable {σ : Type} {C : Codec} {H : Hooks σ} {store : σ} {d d' : Dir} {s s₁ s₂ : Replay σ}
  {active : Option Bytes}

/-- What a recovery returns and delivers depends on the snapshot and the two logs only. -/
theorem recover_fst (d : Dir) : (recover C H d store).map Prod.fst =
    (loadSnapshot C H d.snapshot store).bind fun s =>
      (replayFile C H .active d.active s).bind fun x =>
        (replayFile C H .tmp d.tmp x.1).map Prod.fst := by
  rw [recover_eq]
  cases loadSnapshot C H d.snapshot store with
  | error e => rfl
  | ok s =>
    dsimp only [Except.bind]
    cases replayFile C H .active d.active s with
    | error e => rfl
    | ok x =>
      dsimp only [Except.bind]
      cases replayFile C H .tmp d.tmp x.1 <;> rfl

theorem recover_fst_active (hload : loadSnapshot C H d.snapshot store = .ok s)
    (hactive : replayFile C H .active d.active s = .ok (s₁, active)) :
    (recover C H d store).map Prod.fst = (replayFile C H .tmp d.tmp s₁).map Prod.fst := by
  rw [recover_fst, hload]
  dsimp only [Except.bind]
  rw [hactive]

theorem recover_fst_tmp {tmp : Option Bytes} (hload : loadSnapshot C H d.snapshot store = .ok s)
    (hactive : replayFile C H .active d.active s = .ok (s₁, active))
    (htmp : replayFile C H .tmp d.tmp s₁ = .ok (s₂, tmp)) :
    (recover C H d store).map Prod.fst = .ok s₂ := by
  rw [recover_fst_active hload hactive, htmp]
  rfl

theorem replayFile_merged {file file' : Option Bytes} {tmp : Bytes}
    (hactive : replayFile C H .active file s = .ok (s₁, active))
    (htmp : replayFile C H .tmp file' s₁ = .ok (s₂, some tmp)) :
    replayFile C H .active (some (active.getD [] ++ tmp)) s =
        .ok (s₂, some (active.getD [] ++ tmp)) ∧
      replayFile C H .tmp (some tmp) s₂ = .ok (s₂, some tmp) := by
  obtain ⟨-, lines, hdata, hmarks, hlines⟩ := replayFile_ok hactive
  obtain ⟨-, lines', hdata', hmarks', hlines'⟩ := replayFile_ok htmp
  change tmp = _ at hdata'
  rw [hdata, hdata']
  constructor
  · refine map_eq_ok.mpr ⟨_, (replayWALFile_join hmarks (hlines .active)).mpr ⟨_, ?_, rfl⟩, rfl⟩
    exact replayWALFile_lines hmarks' (hlines' .active)
  · refine map_eq_ok.mpr ⟨_, replayWALFile_lines hmarks' ?_, rfl⟩
    exact replayLines_again lines' 0 (hlines' .tmp 0) le_rfl

/-- **One interruption.**  Behind the rename the records of the temporary log stand in both; the
active one has taken the replay past them. -/
theorem Interrupted.recover_fst_eq (h : Interrupted C H store d d') :
    (recover C H d' store).map Prod.fst = (recover C H d store).map Prod.fst := by
  cases h with
  | untouched => rfl
  | cleaned => rw [recover_fst, recover_fst]
  | active hload hactive =>
    rw [recover_fst_active hload hactive]
    exact recover_fst_active hload (replayFile_again hactive)
  | tmp hload hactive htmp =>
    rw [recover_fst_tmp hload hactive htmp]
    exact recover_fst_tmp hload (replayFile_again hactive) (replayFile_again htmp)
  | copying hload hactive htmp _ =>
    rw [recover_fst_tmp hload hactive htmp]
    exact recover_fst_tmp hload (replayFile_again hactive) (replayFile_again htmp)
  | renamed hload hactive htmp =>
    obtain ⟨hmerged, hskipped⟩ := replayFile_merged hactive htmp
    rw [recover_fst_tmp hload hactive htmp]
    exact recover_fst_tmp hload hmerged hskipped
  | done h =>
    rw [recover_eq] at h
    obtain ⟨s, hload, h⟩ := bind_eq_ok.mp h
    obtain ⟨⟨s₁, active⟩, hactive, h⟩ := bind_eq_ok.mp h
    obtain ⟨⟨s₂, tmp⟩, htmp, hsame⟩ := map_eq_ok.mp h
    cases hsame
    rw [recover_fst_tmp hload hactive htmp]
    cases tmp with
    | none => exact recover_fst_tmp hload (replayFile_again hactive) (replayFile_again htmp)
    | some tmp => exact recover_fst_tmp hload (replayFile_merged hactive htmp).1 rfl

end Interrupted

/-- **Recovery is re-entrant.**  On whatever any number of interrupted and completed recoveries
leave of a directory, `Recover` returns and delivers what it does on the directory itself. -/
theorem recovery_reentrant {σ : Type} (C : Codec) (H : Hooks σ) (store : σ) {d d' : Dir}
    (h : Relation.ReflTransGen (Interrupted C H store) d d') :
    (recover C H d' store).map Prod.fst = (recover C H d store).map Prod.fst := by
  induction h with
  | refl => rfl
  | tail _ hstep ih => rw [hstep.recover_fst_eq, ih]

/-- An interrupted rotation: one record in each log, the second without its newline. -/
def rotatedDir : Dir where
  snapshotTmp := some [0]
  active := some (walFile markedCodec (twoRecords.take 1))
  tmp := some (markedCodec.encode { putRecord "b" with logIndex := 2 })

/-- Interrupted behind the rename; the second run merges the temporary log once more, and the third
one finds its record twice. -/
theorem recovery_reentrant_rotated :
    (recover markedCodec recording
        { active := some (walFile markedCodec (twoRecords ++ twoRecords.drop 1)) } []).map
      Prod.fst = .ok ⟨2, twoRecords⟩ :=
  have hrenamed : Interrupted markedCodec recording [] rotatedDir
      { active := some (walFile markedCodec twoRecords)
        tmp := some (walFile markedCodec (twoRecords.drop 1)) } :=
    have hactive : replayFile markedCodec recording .active rotatedDir.active ⟨0, []⟩ =
        .ok (⟨1, twoRecords.take 1⟩, rotatedDir.active) := by decide +kernel
    have htmp : replayFile markedCodec recording .tmp rotatedDir.tmp ⟨1, twoRecords.take 1⟩ =
        .ok (⟨2, twoRecords⟩, some (walFile markedCodec (twoRecords.drop 1))) := by decide +kernel
    .renamed rfl hactive htmp
  have hdone : Interrupted markedCodec recording []
      { active := some (walFile markedCodec twoRecords)
        tmp := some (walFile markedCodec (twoRecords.drop 1)) }
      { active := some (walFile markedCodec (twoRecords ++ twoRecords.drop 1)) } :=
    .done (s := ⟨2, twoRecords⟩) (by decide +kernel)
  (recovery_reentrant markedCodec recording [] (.tail (.single hrenamed) hdone)).trans
    (by decide +kernel)

end Cachey.Wal
