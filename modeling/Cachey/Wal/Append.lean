/-
# Failed appends

A session: a directory is recovered, the writer starts on it, and mutations arrive whose appends
may fail in any way.  Then the process dies and the directory is recovered again.

An append that fails has spent its index and may have left a piece of its line in the file.  The
file is not cut back and the index is not given back, so the file is in order only as long as
NOTHING is written behind the piece: `append_safe_iff` says that recovery succeeds exactly when

* no append that leaves a whole line comes after one that does not;
* if all that the failed appends left is one record without its newline, it is the first of them
  (else its index leaves a gap);
* every operation that recovery reads is one it knows.

When recovery succeeds, it has applied every record that was acknowledged, and every record it
applies has the index it was written with.
-/
import Cachey.Wal.Codec
import Cachey.Wal.Writer
import Mathlib.Data.List.TakeWhile

namespace Cachey.Wal

/-! ## 1. Attempts

What counts is the bytes an append leaves, not the error it returns: after a failed `Sync` the whole
line is in the file although the caller is told that the write failed. -/

/-- An append: the record with its index, and what became of it. -/
structure Attempt where
  record : Record
  outcome : AppendOutcome
deriving DecidableEq

/-- The appends of a session that starts behind index `last`. -/
def attempts (last : ℕ) : List (Record × AppendOutcome) → List Attempt
  | [] => []
  | (rec, outcome) :: reqs =>
    { record := { rec with logIndex := last + 1 }, outcome := outcome } :: attempts (last + 1) reqs

namespace Attempt

/-- What it leaves in the file. -/
def piece (C : Codec) (a : Attempt) : Bytes :=
  match a.outcome with
  | .marshalFails => []
  | .writeFails left => (a.record.marshal C).take left
  | .syncFails | .succeeds => a.record.marshal C

def whole (C : Codec) (a : Attempt) : Bool := a.piece C = a.record.marshal C

def reply (a : Attempt) : Reply := if a.outcome = .succeeds then .ok else .failed

/-- The appends carry the indices from `last + 1` on. -/
def Numbered : (last : ℕ) → List Attempt → Prop
  | _, [] => True
  | last, a :: as => a.record.logIndex = last + 1 ∧ Numbered (last + 1) as

theorem numbered_attempts : ∀ (reqs : List (Record × AppendOutcome)) (last : ℕ),
    Numbered last (attempts last reqs)
  | [], _ => trivial
  | (_, _) :: reqs, last => ⟨rfl, numbered_attempts reqs (last + 1)⟩

theorem Numbered.append : ∀ {as as' : List Attempt} {last : ℕ}, Numbered last (as ++ as') →
    Numbered last as ∧ Numbered (last + as.length) as'
  | [], _, _, h => ⟨trivial, h⟩
  | a :: as, as', last, h => by
    obtain ⟨h₁, h₂⟩ := h
    obtain ⟨h₃, h₄⟩ := Numbered.append h₂
    refine ⟨⟨h₁, h₃⟩, ?_⟩
    rw [List.length_cons, show last + (as.length + 1) = last + 1 + as.length by omega]
    exact h₄

variable {C : Codec} {a : Attempt} {as : List Attempt}

theorem whole_iff : a.whole C = true ↔ a.piece C = a.record.marshal C := by
  simp [whole]

theorem piece_of_not_whole (h : a.whole C = false) : ∃ q, a.piece C ++ q = C.encode a.record := by
  have hne : a.piece C ≠ a.record.marshal C := by simpa [whole] using h
  unfold piece at hne ⊢
  split
  · exact ⟨_, List.nil_append _⟩
  next left houtcome =>
    rw [houtcome] at hne
    have hshort : left ≤ (C.encode a.record).length := by
      by_contra hlong
      refine hne (List.take_of_length_le ?_)
      rw [Record.marshal, List.length_append, List.length_singleton]
      omega
    rw [Record.marshal, List.take_append_of_le_length hshort]
    exact ⟨_, List.take_append_drop left _⟩
  next houtcome =>
    rw [houtcome] at hne
    exact absurd rfl hne
  next houtcome =>
    rw [houtcome] at hne
    exact absurd rfl hne

theorem whole_of_reply (h : a.reply = .ok) : a.whole C = true := by
  unfold reply at h
  split at h
  next houtcome => simp [whole, piece, houtcome]
  next => cases h

theorem newline_not_mem_piece (hC : C.Lawful) (h : a.whole C = false) : newline ∉ a.piece C := by
  obtain ⟨q, hq⟩ := piece_of_not_whole h
  intro hmem
  exact hC.one_line a.record (hq ▸ List.mem_append_left q hmem)

def pieces (C : Codec) (as : List Attempt) : Bytes := as.flatMap (piece C)

theorem pieces_whole (h : ∀ a ∈ as, a.whole C = true) :
    pieces C as = Lines.join newline (as.map fun a => C.encode a.record) := by
  induction as with
  | nil => rfl
  | cons a as ih =>
    have ha : a.piece C = a.record.marshal C := whole_iff.mp (h a List.mem_cons_self)
    have has := ih fun b hb => h b (List.mem_cons_of_mem _ hb)
    rw [pieces] at has ⊢
    rw [List.flatMap_cons, ha, has, List.map_cons, Lines.join_cons, Record.marshal,
      List.append_assoc]
    rfl

theorem newline_not_mem_pieces (hC : C.Lawful) (h : ∀ a ∈ as, a.whole C = false) :
    newline ∉ pieces C as := by
  intro hmem
  obtain ⟨a, ha, hmem⟩ := List.mem_flatMap.mp hmem
  exact newline_not_mem_piece hC (h a ha) hmem

def traces (C : Codec) (as : List Attempt) : List Attempt := as.filter fun a => a.piece C ≠ []

theorem pieces_traces (as : List Attempt) : pieces C as = ((traces C as).map (piece C)).flatten := by
  induction as with
  | nil => rfl
  | cons a as ih =>
    rw [pieces] at ih ⊢
    rw [List.flatMap_cons, ih, traces, traces, List.filter_cons]
    by_cases ha : a.piece C = []
    · simp [ha]
    · simp [ha]

theorem decode_pieces (hC : C.Lawful) (h : ∀ a ∈ as, a.whole C = false) (rest : List Bytes)
    (hrest : ∀ p ∈ rest, C.Piece p) (hlen : 2 ≤ (traces C as).length + rest.length) :
    C.decode (pieces C as ++ rest.flatten) = none := by
  rw [pieces_traces, ← List.flatten_append]
  refine hC.decode_joined _ (by simpa using hlen) fun p hp => ?_
  rcases List.mem_append.mp hp with hp | hp
  · obtain ⟨a, ha, rfl⟩ := List.mem_map.mp hp
    obtain ⟨ha, hne⟩ := List.mem_filter.mp ha
    obtain ⟨q, hq⟩ := piece_of_not_whole (h a ha)
    exact ⟨by simpa using hne, a.record, q, hq⟩
  · exact hrest p hp

end Attempt

/-! ## 2. Replaying what they leave

Everything up to the first append that left no whole line is replayed as it was written.  Behind
that the file has no newline until the next whole line, so the pieces in between and that line are
read as ONE line.  By the laws of the encoding this is no record; and where nothing at all was left,
the index of the next record leaves a gap. -/

/-- A store that writes down what it is given, and refuses nothing. -/
def recording : Hooks (List Record) where
  applySnapshot := fun l _ => some l
  applyRecord := fun l rec => some (l ++ [rec])

namespace Attempt

variable {C : Codec} {path : File} {s s' : Replay (List Record)} {as : List Attempt} {a : Attempt}
  {last : ℕ}

def grown (s : Replay (List Record)) (as : List Attempt) : Replay (List Record) where
  last := s.last + as.length
  store := s.store ++ as.map record

theorem deliver_next {rec : Record} (h : rec.logIndex = s.last + 1) :
    deliver recording rec s = .ok { last := rec.logIndex, store := s.store ++ [rec] } := by
  unfold deliver
  rw [if_pos h]
  rfl

theorem replayLines_whole (hC : C.Lawful) : ∀ (as : List Attempt) {s : Replay (List Record)},
    Numbered s.last as → (∀ a ∈ as, a.record.op.known = true) → ∀ i,
    replayLines C recording path i (as.map fun a => C.encode a.record) s = .ok (grown s as)
  | [], s, _, _, i => by
    simp [replayLines, grown]
  | a :: as, s, hnum, hknown, i => by
    have hrec : replayRecord recording path a.record s =
        .ok { last := a.record.logIndex, store := s.store ++ [a.record] } :=
      replayRecord_eq_ok.mpr ⟨hknown a List.mem_cons_self, Nat.le_of_eq hnum.1,
        deliver_next hnum.1⟩
    have hrest := replayLines_whole hC as
      (s := { last := a.record.logIndex, store := s.store ++ [a.record] })
      (by rw [hnum.1]; exact hnum.2) (fun b hb => hknown b (List.mem_cons_of_mem _ hb)) (i + 1)
    rw [List.map_cons, replayLines, if_neg (hC.not_empty _), hC.decode_encode]
    refine bind_eq_ok.mpr ⟨_, hrec, hrest.trans ?_⟩
    simp [grown, hnum.1]
    omega

theorem known_of_replayLines (hC : C.Lawful) : ∀ {as : List Attempt} {s : Replay (List Record)}
    (lines : List Bytes) (i : ℕ),
    replayLines C recording path i ((as.map fun a => C.encode a.record) ++ lines) s = .ok s' →
    ∀ a ∈ as, a.record.op.known = true
  | [], _, _, _, _ => fun _ ha => absurd ha List.not_mem_nil
  | a :: as, s, lines, i, h => by
    rw [List.map_cons, List.cons_append, replayLines, if_neg (hC.not_empty _),
      hC.decode_encode] at h
    obtain ⟨s₁, h₁, h₂⟩ := bind_eq_ok.mp h
    intro b hb
    rcases List.mem_cons.mp hb with rfl | hb
    · exact (replayRecord_eq_ok.mp h₁).1
    · exact known_of_replayLines hC lines (i + 1) h₂ b hb

/-- A file that starts with whole lines is replayed when their operations are known and the rest
is replayed behind them. -/
theorem replayWALFile_whole (hC : C.Lawful) (hnum : Numbered s.last as)
    (hwhole : ∀ a ∈ as, a.whole C = true) (rest : Bytes) :
    (∃ data', replayWALFile C recording path (pieces C as ++ rest) s = .ok (s', data')) ↔
      (∀ a ∈ as, a.record.op.known = true) ∧
        ∃ rest', replayWALFile C recording path rest (grown s as) = .ok (s', rest') := by
  have hmarks : ∀ l ∈ as.map fun a => C.encode a.record, newline ∉ l := by
    intro l hl
    obtain ⟨a, -, rfl⟩ := List.mem_map.mp hl
    exact hC.one_line a.record
  rw [pieces_whole hwhole]
  constructor
  · rintro ⟨data', h⟩
    have hknown : ∀ a ∈ as, a.record.op.known = true := by
      rw [replayWALFile_eq, Lines.split_join hmarks] at h
      obtain ⟨s₁, h₁, -⟩ := bind_eq_ok.mp h
      exact known_of_replayLines hC _ 0 h₁
    obtain ⟨rest', hrest, -⟩ :=
      (replayWALFile_join hmarks (replayLines_whole hC as hnum hknown)).mp h
    exact ⟨hknown, rest', hrest⟩
  · rintro ⟨hknown, rest', hrest⟩
    exact ⟨_, (replayWALFile_join hmarks (replayLines_whole hC as hnum hknown)).mpr
      ⟨rest', hrest, rfl⟩⟩

/-- A whole line behind a failed append is not replayed: it is glued to what was left, or its index
leaves a gap. -/
theorem replay_glued (hC : C.Lawful) {inc more : List Attempt} {y : Attempt}
    (hnum : Numbered s.last (inc ++ y :: more)) (hne : inc ≠ [])
    (hinc : ∀ a ∈ inc, a.whole C = false) (hy : y.whole C = true) {data' : Bytes} :
    replayWALFile C recording path (pieces C (inc ++ y :: more)) s ≠ .ok (s', data') := by
  intro h
  have hpiece : y.piece C = C.encode y.record ++ [newline] := whole_iff.mp hy
  have hdata : pieces C (inc ++ y :: more) =
      (pieces C inc ++ C.encode y.record) ++ newline :: pieces C more := by
    simp [pieces, hpiece]
  have hmark : newline ∉ pieces C inc ++ C.encode y.record := by
    rw [List.mem_append, not_or]
    exact ⟨newline_not_mem_pieces hC hinc, hC.one_line _⟩
  rw [replayWALFile_eq, hdata, Lines.split_line _ hmark] at h
  obtain ⟨s₁, hlines, -⟩ := bind_eq_ok.mp h
  rw [replayLines, if_neg (by simp [hC.not_empty])] at hlines
  by_cases htrace : traces C inc = []
  · -- nothing was left: the line is the record, and its index is too high
    rw [pieces_traces, htrace, List.map_nil, List.flatten_nil, List.nil_append,
      hC.decode_encode] at hlines
    obtain ⟨s₂, hrec, -⟩ := bind_eq_ok.mp hlines
    have hgap := (replayRecord_eq_ok.mp hrec).2.1
    have hindex := hnum.append.2.1
    have := List.length_pos_of_ne_nil hne
    omega
  · have hnone : C.decode (pieces C inc ++ C.encode y.record) = none := by
      have := decode_pieces hC hinc [C.encode y.record]
        (fun p hp => by
          rw [List.mem_singleton.mp hp]
          exact ⟨hC.not_empty _, y.record, [], List.append_nil _⟩)
        (by
          have := List.length_pos_of_ne_nil htrace
          simp only [List.length_singleton]
          omega)
      simpa using this
    rw [hnone] at hlines
    cases hlines

theorem replay_unfinished (hC : C.Lawful) (has : ∀ a ∈ as, a.whole C = false) :
    replayWALFile C recording path (pieces C as) s =
      replayTail C recording path (pieces C as) (pieces C as) s := by
  rw [replayWALFile_eq, Lines.split_unfinished (newline_not_mem_pieces hC has)]
  rfl

/-- It is cut off unless it is exactly one record, which must then be the next one.  A `Write` that
fails short of the newline can leave such a record; behind an append that left nothing its index is
one too high. -/
def LoneFirst (C : Codec) (as : List Attempt) : Prop :=
  ∀ a, traces C as = [a] → a.piece C = C.encode a.record →
    as.head? = some a ∧ a.record.op.known = true

theorem lone_mem (h : traces C as = [a]) : a ∈ as ∧ a.piece C ≠ [] := by
  have hmem : a ∈ traces C as := h ▸ List.mem_singleton_self a
  obtain ⟨h₁, h₂⟩ := List.mem_filter.mp hmem
  exact ⟨h₁, by simpa using h₂⟩

theorem index_of_head (hnum : Numbered last as) (hhead : as.head? = some a) :
    a.record.logIndex = last + 1 := by
  cases as with
  | nil => cases hhead
  | cons b as =>
    cases hhead
    exact hnum.1

theorem head_of_next : ∀ {as : List Attempt} {a : Attempt}, Numbered last as → a ∈ as →
    a.record.logIndex ≤ last + 1 → as.head? = some a
  | b :: as, a, hnum, hmem, hle => by
    rcases List.mem_cons.mp hmem with rfl | hmem
    · rfl
    · have hlow : ∀ {as : List Attempt} {last : ℕ}, Numbered last as → ∀ x ∈ as,
          last < x.record.logIndex := by
        intro as
        induction as with
        | nil => exact fun _ x hx => absurd hx List.not_mem_nil
        | cons y as ih =>
          intro last hnum x hx
          rcases List.mem_cons.mp hx with rfl | hx
          · have := hnum.1
            omega
          · have := ih hnum.2 x hx
            omega
      have := hlow hnum.2 a hmem
      omega

/-- **Failed appends at the end** of the file are replayed exactly when they leave no lone record
out of order; what is applied is at most the first of them. -/
theorem replay_failed (hC : C.Lawful) (hnum : Numbered s.last as)
    (has : ∀ a ∈ as, a.whole C = false) :
    (∀ {s' data'}, replayWALFile C recording path (pieces C as) s = .ok (s', data') →
      LoneFirst C as ∧ (s'.store = s.store ∨ ∃ a ∈ as, s'.store = s.store ++ [a.record])) ∧
    (LoneFirst C as → ∃ s' data',
      replayWALFile C recording path (pieces C as) s = .ok (s', data')) := by
  rw [replay_unfinished hC has]
  unfold replayTail
  by_cases hnil : pieces C as = []
  · rw [if_pos hnil]
    refine ⟨fun h => ?_, fun _ => ⟨s, _, rfl⟩⟩
    cases h
    refine ⟨fun a ha _ => ?_, Or.inl rfl⟩
    rw [pieces_traces, ha] at hnil
    exact absurd (by simpa using hnil) (lone_mem ha).2
  rw [if_neg hnil]
  -- is there exactly one trace?
  by_cases hone : ∃ a, traces C as = [a]
  · obtain ⟨a, ha⟩ := hone
    obtain ⟨hmem, hne⟩ := lone_mem ha
    have hpieces : pieces C as = a.piece C := by
      rw [pieces_traces, ha]
      simp
    rw [hpieces]
    by_cases hbare : a.piece C = C.encode a.record
    · rw [hbare, hC.decode_encode]
      constructor
      · intro s' data' h
        obtain ⟨s₁, hrec, hsame⟩ := map_eq_ok.mp h
        cases hsame
        obtain ⟨hknown, hle, hdel⟩ := replayRecord_eq_ok.mp hrec
        have hhead := head_of_next hnum hmem hle
        refine ⟨fun b hb _ => ?_, Or.inr ⟨a, hmem, ?_⟩⟩
        · cases ha.symm.trans hb
          exact ⟨hhead, hknown⟩
        · rw [deliver_next (index_of_head hnum hhead)] at hdel
          cases hdel
          rfl
      · intro hlone
        obtain ⟨hhead, hknown⟩ := hlone a ha hbare
        have hindex := index_of_head hnum hhead
        exact ⟨_, _, map_eq_ok.mpr ⟨_, replayRecord_eq_ok.mpr
          ⟨hknown, Nat.le_of_eq hindex, deliver_next hindex⟩, rfl⟩⟩
    · have hnone : C.decode (a.piece C) = none := by
        obtain ⟨q, hq⟩ := piece_of_not_whole (has a hmem)
        refine hC.decode_initial hq ?_
        rintro rfl
        rw [List.append_nil] at hq
        exact hbare hq
      rw [hnone]
      refine ⟨fun h => ?_, fun _ => ⟨_, _, rfl⟩⟩
      cases h
      refine ⟨fun b hb hbare' => ?_, Or.inl rfl⟩
      cases ha.symm.trans hb
      exact absurd hbare' hbare
  · have hlen : 2 ≤ (traces C as).length := by
      match htr : traces C as with
      | [] =>
        rw [pieces_traces, htr] at hnil
        exact absurd rfl hnil
      | [a] => exact absurd ⟨a, htr⟩ hone
      | _ :: _ :: _ => simp
    have hnone : C.decode (pieces C as) = none := by
      have := decode_pieces hC has [] (fun p hp => absurd hp List.not_mem_nil) (by simpa using hlen)
      simpa using this
    rw [hnone]
    refine ⟨fun h => ?_, fun _ => ⟨_, _, rfl⟩⟩
    cases h
    exact ⟨fun b hb _ => absurd ⟨b, hb⟩ hone, Or.inl rfl⟩

end Attempt

/-! ## 3. Sessions -/

/-- The appends of a session do no harm: behind the first one that does not leave its whole line
none does, those before it have known operations, and they leave no lone record out of order. -/
structure Harmless (C : Codec) (as : List Attempt) : Prop where
  known : ∀ a ∈ as.takeWhile (Attempt.whole C), a.record.op.known = true
  failed : ∀ a ∈ as.dropWhile (Attempt.whole C), a.whole C = false
  lone : Attempt.LoneFirst C (as.dropWhile (Attempt.whole C))

namespace Running

variable {C : Codec}

theorem handleMutation_idle {r : Running} (hidle : r.writer.state = .idle)
    (hopen : r.writer.active = true) {data : Bytes} (hdata : r.dir.active = some data)
    (rec : Record) (outcome : AppendOutcome) :
    let a : Attempt := ⟨{ rec with logIndex := r.writer.lastIndex + 1 }, outcome⟩
    ∃ w, r.handleMutation C outcome rec =
        (⟨w, { r.dir with active := some (data ++ a.piece C) }⟩, some a.reply) ∧
      w.state = .idle ∧ w.active = true ∧ w.lastIndex = r.writer.lastIndex + 1 := by
  intro a
  have hdir : r.dir = { r.dir with active := some (data ++ []) } := by
    rw [List.append_nil, ← hdata]
  unfold handleMutation append
  rw [hidle, hopen]
  cases outcome with
  | marshalFails =>
    refine ⟨{ r.writer with lastIndex := r.writer.lastIndex + 1 }, ?_, hidle, hopen, rfl⟩
    conv_lhs => rw [hdir]
    rfl
  | writeFails left =>
    refine ⟨{ r.writer with lastIndex := r.writer.lastIndex + 1 }, ?_, hidle, hopen, rfl⟩
    simp only [Dir.write, hdata, Option.getD_some]
    rfl
  | syncFails =>
    refine ⟨{ r.writer with lastIndex := r.writer.lastIndex + 1 }, ?_, hidle, hopen, rfl⟩
    simp only [Dir.write, hdata, Option.getD_some]
    rfl
  | succeeds =>
    refine ⟨count .active { r.writer with lastIndex := r.writer.lastIndex + 1 }, ?_, hidle, hopen,
      rfl⟩
    simp only [Dir.write, hdata, Option.getD_some]
    rfl

/-- **A session** writes its pieces to the active log, one after the other, and answers each
append. -/
theorem session_idle : ∀ (reqs : List (Record × AppendOutcome)) (r : Running) (data : Bytes),
    r.writer.state = .idle → r.writer.active = true → r.dir.active = some data →
    (r.session C reqs).1.dir = { r.dir with
      active := some (data ++ Attempt.pieces C (attempts r.writer.lastIndex reqs)) } ∧
    (r.session C reqs).2 = (attempts r.writer.lastIndex reqs).map fun a => some a.reply
  | [], r, data, _, _, hdata => by
    refine ⟨?_, rfl⟩
    change r.dir = { r.dir with active := some (data ++ []) }
    rw [List.append_nil, ← hdata]
  | (rec, outcome) :: reqs, r, data, hidle, hopen, hdata => by
    obtain ⟨w, heq, hidle', hopen', hlast⟩ := handleMutation_idle (C := C) hidle hopen hdata rec
      outcome
    obtain ⟨hdir, hreplies⟩ := session_idle reqs ⟨w, { r.dir with active := some (data ++ _) }⟩ _
      hidle' hopen' rfl
    rw [hlast] at hdir hreplies
    unfold session
    rw [heq]
    refine ⟨hdir.trans ?_, congrArg (List.cons _) hreplies⟩
    rw [List.append_assoc]
    rfl

end Running

/-- Behind the first append that does not leave its whole line, a whole line is the end. -/
theorem replay_behind {s s' : Replay (List Record)} (hC : C.Lawful) {as : List Attempt}
    (hnum : Attempt.Numbered s.last (as.dropWhile (Attempt.whole C))) {data' : Bytes}
    (h : replayWALFile C recording .active
      (Attempt.pieces C (as.dropWhile (Attempt.whole C))) s = .ok (s', data')) :
    ∀ a ∈ as.dropWhile (Attempt.whole C), a.whole C = false := by
  intro a ha
  by_contra hcon
  have hfirst := List.head?_dropWhile_not (Attempt.whole C) as
  cases hfind : (as.dropWhile (Attempt.whole C)).find? (Attempt.whole C) with
  | none => exact absurd (List.find?_eq_none.mp hfind a ha) (by simpa using hcon)
  | some y =>
    obtain ⟨hy, inc, more, heq, hinc⟩ := List.find?_eq_some_iff_append.mp hfind
    rw [heq] at hnum h hfirst
    refine Attempt.replay_glued hC hnum ?_ (fun b hb => by simpa using hinc b hb) hy h
    rintro rfl
    simp only [List.nil_append, List.head?_cons] at hfirst
    rw [hy] at hfirst
    cases hfirst

/-- What a session needs of the recovery behind it, if its appends were `as`, their answers
`replies`, and the records of the recovery before it were `before`: it succeeds, it applies the
earlier records and every record that was acknowledged, and every record it applies is one of
these, with the index it was written with. -/
def Safe (C : Codec) (before : List Record) (as : List Attempt) (replies : List (Option Reply))
    (d : Dir) : Prop :=
  ∃ s d', recover C recording d [] = .ok (s, d') ∧ before <+: s.store ∧
    (∀ (i : ℕ) (a : Attempt), as[i]? = some a → replies[i]? = some (some .ok) →
      a.record ∈ s.store) ∧
    ∀ rec ∈ s.store, rec ∈ before ∨ ∃ a ∈ as, rec = a.record

/-- **When failed appends do no harm.**  For any directory that can be recovered, and any session
behind it: the recovery after the session is safe exactly when the appends are harmless.  The
condition is about the outcomes of the appends and the bytes they leave; the source repairs the file
at the next start only, and a running writer goes on behind a failure. -/
theorem append_safe_iff (C : Codec) (hC : C.Lawful) (tmpLimit holdLimit : ℕ) {d₀ d : Dir}
    {s : Replay (List Record)} (hrec : recover C recording d₀ [] = .ok (s, d))
    (reqs : List (Record × AppendOutcome)) :
    Safe C s.store (attempts s.last reqs)
        ((Running.start tmpLimit holdLimit s.last d).session C reqs).2
        ((Running.start tmpLimit holdLimit s.last d).session C reqs).1.dir ↔
      Harmless C (attempts s.last reqs) := by
  obtain ⟨hdir, hreplies⟩ := Running.session_idle (C := C) reqs
    (Running.start tmpLimit holdLimit s.last d) (d.active.getD []) rfl rfl rfl
  have hagain : ∀ {s' : Replay (List Record)}, (∃ d', recover C recording { d with
      active := some (d.active.getD [] ++ Attempt.pieces C (attempts s.last reqs)) } [] =
        .ok (s', d')) ↔
      ∃ more', replayWALFile C recording .active (Attempt.pieces C (attempts s.last reqs)) s =
        .ok (s', more') :=
    recover_append hrec (Attempt.pieces C (attempts s.last reqs))
  change _ = { d with active := some (d.active.getD [] ++ Attempt.pieces C (attempts s.last reqs)) }
    at hdir
  change _ = (attempts s.last reqs).map _ at hreplies
  rw [hdir, hreplies]
  have hnum := Attempt.numbered_attempts reqs s.last
  generalize attempts s.last reqs = as at hnum hagain ⊢
  have hsplit : as.takeWhile (Attempt.whole C) ++ as.dropWhile (Attempt.whole C) = as :=
    List.takeWhile_append_dropWhile
  have hwhole : ∀ a ∈ as.takeWhile (Attempt.whole C), a.whole C = true :=
    fun a ha => List.mem_takeWhile_imp ha
  rw [← hsplit] at hnum
  obtain ⟨hnum₁, hnum₂⟩ := hnum.append
  replace hnum₂ : Attempt.Numbered (Attempt.grown s (as.takeWhile (Attempt.whole C))).last
    (as.dropWhile (Attempt.whole C)) := hnum₂
  -- recovery replays the whole lines, then the rest
  have hrecover : ∀ s', (∃ d', recover C recording { d with
      active := some (d.active.getD [] ++ Attempt.pieces C as) } [] = .ok (s', d')) ↔
      (∀ a ∈ as.takeWhile (Attempt.whole C), a.record.op.known = true) ∧
        ∃ rest', replayWALFile C recording .active
          (Attempt.pieces C (as.dropWhile (Attempt.whole C)))
          (Attempt.grown s (as.takeWhile (Attempt.whole C))) = .ok (s', rest') := by
    intro s'
    rw [hagain, ← Attempt.replayWALFile_whole hC hnum₁ hwhole, Attempt.pieces, Attempt.pieces,
      Attempt.pieces, ← List.flatMap_append, hsplit]
  constructor
  · rintro ⟨s', d', hok, -⟩
    obtain ⟨hknown, rest', hrest⟩ := (hrecover s').mp ⟨d', hok⟩
    have hfailed := replay_behind hC hnum₂ hrest
    exact ⟨hknown, hfailed, ((Attempt.replay_failed hC hnum₂ hfailed).1 hrest).1⟩
  · intro h
    obtain ⟨s', rest', hrest⟩ := (Attempt.replay_failed hC hnum₂ h.failed).2 h.lone
    obtain ⟨d', hok⟩ := (hrecover s').mpr ⟨h.known, rest', hrest⟩
    have hstore := ((Attempt.replay_failed hC hnum₂ h.failed).1 hrest).2
    obtain ⟨more, hmore, hmem⟩ : ∃ more : List Record,
        s'.store = (s.store ++ (as.takeWhile (Attempt.whole C)).map Attempt.record) ++ more ∧
        ∀ rec ∈ more, ∃ a ∈ as.dropWhile (Attempt.whole C), rec = a.record := by
      rcases hstore with hstore | ⟨a, ha, hstore⟩
      · exact ⟨[], by rw [hstore, List.append_nil]; rfl, fun _ h => absurd h List.not_mem_nil⟩
      · exact ⟨[a.record], hstore, fun rec hrec => ⟨a, ha, List.mem_singleton.mp hrec⟩⟩
    refine ⟨s', d', hok, ?_, fun i a ha hi => ?_, fun rec hrec => ?_⟩
    · exact ⟨(as.takeWhile (Attempt.whole C)).map Attempt.record ++ more, by simp [hmore]⟩
    · -- an acknowledged record is a whole line, and those are all in front
      rw [List.getElem?_map, ha, Option.map_some, Option.some.injEq, Option.some.injEq] at hi
      have hin : a ∈ as.takeWhile (Attempt.whole C) := by
        have hmem := List.mem_of_getElem? ha
        rw [← hsplit, List.mem_append] at hmem
        rcases hmem with hmem | hmem
        · exact hmem
        · have hno := h.failed a hmem
          rw [Attempt.whole_of_reply hi] at hno
          cases hno
      rw [hmore]
      exact List.mem_append_left _ (List.mem_append_right _ (List.mem_map_of_mem hin))
    · rw [hmore, List.append_assoc, List.mem_append, List.mem_append] at hrec
      rcases hrec with hrec | hrec | hrec
      · exact Or.inl hrec
      · obtain ⟨a, ha, rfl⟩ := List.mem_map.mp hrec
        exact Or.inr ⟨a, List.takeWhile_subset _ ha, rfl⟩
      · obtain ⟨a, ha, rfl⟩ := hmem rec hrec
        exact Or.inr ⟨a, List.dropWhile_subset _ ha, rfl⟩

/-! ## 4. An encoding, and two sessions -/

/-- Records, each with an opening mark that stands nowhere else. -/
def markedCodec : Codec where
  encode := fun rec => 123 :: recordCode.enc rec
  decode := fun
    | [] => none
    | b :: l => if b = 123 then recordCode.parse l else none
  decodeSnapshot := fun _ => none

theorem markedCodec_piece {p : Bytes} (h : markedCodec.Piece p) : ∃ p', p = 123 :: p' := by
  obtain ⟨hne, r, q, hq⟩ := h
  cases p with
  | nil => exact absurd rfl hne
  | cons b p' =>
    exact ⟨p', by rw [(List.cons.inj hq).1]⟩

theorem markedCodec_lawful : markedCodec.Lawful where
  decode_encode := recordCode.parse_enc
  one_line := by
    intro r hmem
    rcases List.mem_cons.mp hmem with h | h
    · exact absurd h (by decide)
    · exact (recordCode.binary r _ h).elim (fun h => absurd h (by decide))
        (fun h => absurd h (by decide))
  not_empty := fun _ => List.cons_ne_nil _ _
  decode_initial := by
    intro r p q h hq
    cases p with
    | nil => rfl
    | cons b p' =>
      rw [List.cons_append] at h
      obtain ⟨rfl, hrest⟩ := List.cons.inj h
      exact recordCode.parse_initial hrest hq
  decode_joined := by
    intro ps hlen hps
    match ps, hlen with
    | p₁ :: p₂ :: ps, _ =>
      obtain ⟨p₁', rfl⟩ := markedCodec_piece (hps p₁ (by simp))
      obtain ⟨p₂', rfl⟩ := markedCodec_piece (hps p₂ (by simp))
      change recordCode.parse (p₁' ++ (123 :: p₂' ++ ps.flatten)) = none
      cases hparse : recordCode.parse (p₁' ++ (123 :: p₂' ++ ps.flatten)) with
      | none => rfl
      | some r =>
        -- an encoding holds no mark
        have hmem : (123 : UInt8) ∈ recordCode.enc r := by
          rw [← recordCode.parse_eq_some_iff.mp hparse]
          simp
        exact (recordCode.binary r _ hmem).elim (fun h => absurd h (by decide))
          (fun h => absurd h (by decide))

def putRecord (key : String) : Record := { op := .put, key := key }

instance (C : Codec) (as : List Attempt) : Decidable (Attempt.LoneFirst C as) :=
  match h : Attempt.traces C as with
  | [a] => decidable_of_iff
      (a.piece C = C.encode a.record → as.head? = some a ∧ a.record.op.known = true)
      ⟨fun hd b hb => by
        cases h.symm.trans hb
        exact hd, fun hl => hl a h⟩
  | [] => isTrue fun b hb => by
      rw [h] at hb
      cases hb
  | _ :: _ :: _ => isTrue fun b hb => by
      rw [h] at hb
      cases hb

/-- On an empty directory: a record is written and acknowledged, then a write fails and leaves
three bytes. -/
theorem append_safe_torn :
    Safe markedCodec [] (attempts 0 [(putRecord "a", .succeeds), (putRecord "b", .writeFails 3)])
      ((Running.start 1 1 0 {}).session markedCodec
        [(putRecord "a", .succeeds), (putRecord "b", .writeFails 3)]).2
      ((Running.start 1 1 0 {}).session markedCodec
        [(putRecord "a", .succeeds), (putRecord "b", .writeFails 3)]).1.dir :=
  (append_safe_iff markedCodec markedCodec_lawful 1 1
    (show recover markedCodec recording {} [] = .ok (⟨0, []⟩, {}) from rfl)
    [(putRecord "a", .succeeds), (putRecord "b", .writeFails 3)]).mpr
    ⟨by decide +kernel, by decide +kernel, by decide +kernel⟩

/-- On an empty directory: the first write fails and leaves nothing, the second succeeds and is
acknowledged.  It has index 2, and recovery refuses the gap. -/
theorem append_safe_fails :
    ((Running.start 1 1 0 {}).session markedCodec
      [(putRecord "a", .writeFails 0), (putRecord "b", .succeeds)]).2 =
      [some .failed, some .ok] ∧
    recover markedCodec recording ((Running.start 1 1 0 {}).session markedCodec
      [(putRecord "a", .writeFails 0), (putRecord "b", .succeeds)]).1.dir [] =
      .error (.indexGap .active 2 1) ∧
    ¬ Safe markedCodec []
      (attempts 0 [(putRecord "a", .writeFails 0), (putRecord "b", .succeeds)])
      ((Running.start 1 1 0 {}).session markedCodec
        [(putRecord "a", .writeFails 0), (putRecord "b", .succeeds)]).2
      ((Running.start 1 1 0 {}).session markedCodec
        [(putRecord "a", .writeFails 0), (putRecord "b", .succeeds)]).1.dir := by
  have hgap : recover markedCodec recording ((Running.start 1 1 0 {}).session markedCodec
      [(putRecord "a", .writeFails 0), (putRecord "b", .succeeds)]).1.dir [] =
      .error (.indexGap .active 2 1) := by decide +kernel
  refine ⟨by decide +kernel, hgap, ?_⟩
  rintro ⟨s, d', hok, -⟩
  rw [hgap] at hok
  cases hok

end Cachey.Wal
