/-
# Messages on the wire

`tcp_transport.go` sends a message as one line of JSON and reads lines of less than `maxWireLine`
bytes; a longer one ends the connection.  The answer to a range request (`sync.go`) is bounded by
the NUMBER of its blocks.  What the blocks come to in bytes, nobody looks at.

* §1  `encodeMsg`: every message, field by field.
* §2  How long a line is.
* §3  `readWireLine`: it returns a line if and only if it is shorter than the limit.
* §4  `batch_line_readable`: when the answer to a range request can be read.
* §5  Four hundred blocks of 8 KiB, which cannot be fetched.
-/
import Cachey.HotStuff.Exchange
import Cachey.HotStuff.Reorder
import Cachey.Lib.JsonText
import Cachey.Lib.SliceReader
import Mathlib.Algebra.Order.BigOperators.Group.List

namespace Cachey.HotStuff

open JsonText
open SliceReader (readSlice readSlice_short readSlice_long)

/-! ## 1. What is written -/

/-- The places of a message at which Go has a slice or a map, which is nil or empty. -/
inductive Slot where
  | cmd (b : Block)
  | votes (qc : QC)
  | vote (qc : QC) (voter : String)

/-- What the encoding depends on besides the message: the hash, and which of the empty slices and
maps are nil -- `json.Marshal` writes `null` for those. -/
structure Wire where
  sha256 : (view height : ℕ) → (parent : String) → (cmd : Bytes) → String
  isNil : Slot → Bool
  sha256_length : ∀ v h p cmd, (sha256 v h p cmd).length = 64
  sha256_hex : ∀ v h p cmd, ∀ c ∈ (sha256 v h p cmd).toList, c ∈ "0123456789abcdef".toList

def Message.kind : Message → String
  | .proposal _ => "Proposal"
  | .vote _ => "Vote"
  | .viewChange _ => "ViewChange"
  | .fetch _ => "Fetch"
  | .block _ => "Block"
  | .getBlocks _ => "GetBlocks"
  | .blockBatch _ => "BlockBatch"

namespace Wire

variable (W : Wire)

def text : BlockID → String
  | .raw t => t
  | .digest v h p cmd => W.sha256 v h (text p) cmd

def id (i : BlockID) : JsonText := string (W.text i)

def slice (s : Slot) (bs : Bytes) : JsonText := if bs = [] ∧ W.isNil s then null else base64 bs

/-- A map is written in the order of its keys. -/
def votes (q : QC) : JsonText :=
  if q.votes.entries = [] ∧ W.isNil (.votes q) then null
  else object ((q.votes.entries.mergeSort fun a b => a.1 ≤ b.1).map fun e =>
    (e.1, W.slice (.vote q e.1) e.2))

def qc (q : QC) : JsonText :=
  object [("Epoch", number q.epoch), ("NodeID", W.id q.nodeID), ("Height", number q.height),
    ("Votes", W.votes q)]

def optQC : Option QC → JsonText
  | none => null
  | some q => W.qc q

def block (b : Block) : JsonText :=
  object [("View", number b.view), ("Height", number b.height), ("Parent", W.id b.parent),
    ("ID", W.id b.id), ("Cmd", W.slice (.cmd b) b.cmd), ("Justify", W.optQC b.justify),
    ("Epoch", number b.epoch)]

/-- The field `sig`, which is left out when it is empty. -/
def sig (bs : Bytes) : List (String × JsonText) := if bs = [] then [] else [("sig", base64 bs)]

def viewChange (vc : ViewChange) : JsonText :=
  object ([("view", number vc.view), ("epoch", number vc.epoch), ("high_qc", W.optQC vc.highQC),
    ("from", string vc.sender)] ++ sig vc.sig)

/-- The field `view_changes`, which is left out when there are none. -/
def viewChanges (vcs : List ViewChange) : List (String × JsonText) :=
  if vcs = [] then [] else [("view_changes", array (vcs.map W.viewChange))]

/-- `json.Marshal` of a message. -/
def data : Message → JsonText
  | .proposal p => object ([("block", W.block p.block), ("from", string p.sender)] ++
      W.viewChanges p.viewChanges ++ sig p.sig)
  | .vote v => object ([("height", number v.height), ("node_id", W.id v.nodeID),
      ("voter", string v.voter)] ++ sig v.sig)
  | .viewChange vc => W.viewChange vc
  | .fetch f => object [("BlockID", W.id f.blockID), ("To", string f.dest),
      ("From", string f.sender)]
  | .block bm => object ([("block", W.block bm.block), ("from", string bm.sender)] ++ sig bm.sig)
  | .getBlocks g => object [("request_id", number g.requestID), ("anchor", W.id g.anchor),
      ("target", W.id g.target), ("to", string g.dest), ("from", string g.sender)]
  | .blockBatch bb => object ([("request_id", number bb.requestID), ("anchor", W.id bb.anchor),
      ("target", W.id bb.target), ("blocks", array (bb.blocks.map W.block)),
      ("from", string bb.sender)] ++ sig bb.sig)

/-- The envelope.  `Data` is a `json.RawMessage`: what was marshalled is copied. -/
def envelope (m : Message) : JsonText := object [("kind", string m.kind), ("data", W.data m)]

def encodeMsg (m : Message) : List UInt8 := (W.envelope m).bytes ++ [10]

/-! ## 2. Sizes -/

def idSize : BlockID → ℕ
  | .raw t => quoted t
  | .digest .. => 66

def sliceSize (s : Slot) (bs : Bytes) : ℕ :=
  if bs = [] ∧ W.isNil s then 4 else 2 + 4 * ((bs.length + 2) / 3)

def votesSize (q : QC) : ℕ :=
  if q.votes.entries = [] ∧ W.isNil (.votes q) then 4
  else 1 + max 1 (q.votes.entries.map fun e =>
    quoted e.1 + W.sliceSize (.vote q e.1) e.2 + 2).sum

def qcSize (q : QC) : ℕ :=
  39 + digits q.epoch + idSize q.nodeID + digits q.height + W.votesSize q

def optQCSize : Option QC → ℕ
  | none => 4
  | some q => W.qcSize q

def blockSize (b : Block) : ℕ :=
  62 + digits b.view + digits b.height + idSize b.parent + idSize b.id + W.sliceSize (.cmd b) b.cmd +
    W.optQCSize b.justify + digits b.epoch

theorem size_id (i : BlockID) : (W.id i).size = idSize i := by
  rw [id, size_string]
  cases i with
  | raw t => rfl
  | digest v h p cmd =>
    have hone : "0123456789abcdef".toList.all (fun c => (escape c).length = 1) = true := by decide
    have hsum : ((W.sha256 v h (W.text p) cmd).toList.map fun c => (escape c).length) =
        List.replicate 64 1 := by
      rw [List.eq_replicate_iff, List.length_map, String.length_toList]
      refine ⟨W.sha256_length .., fun x hx => ?_⟩
      obtain ⟨c, hc, rfl⟩ := List.mem_map.mp hx
      exact of_decide_eq_true (List.all_eq_true.mp hone c (W.sha256_hex v h (W.text p) cmd c hc))
    rw [quoted, text, hsum]
    rfl

theorem size_slice (s : Slot) (bs : Bytes) : (W.slice s bs).size = W.sliceSize s bs := by
  unfold slice sliceSize
  split
  · rfl
  · exact size_base64 bs

theorem size_votes (q : QC) : (W.votes q).size = W.votesSize q := by
  unfold votes votesSize
  split
  · rfl
  · rw [size_object, List.map_map]
    have hperm := List.mergeSort_perm q.votes.entries fun a b => a.1 ≤ b.1
    rw [← (hperm.map _).sum_eq]
    simp only [Function.comp_def, size_slice]

theorem size_qc (q : QC) : (W.qc q).size = W.qcSize q := by
  have h₁ : quoted "Epoch" = 7 := by decide
  have h₂ : quoted "NodeID" = 8 := by decide
  have h₃ : quoted "Height" = 8 := by decide
  have h₄ : quoted "Votes" = 7 := by decide
  rw [qc, size_object, qcSize]
  simp only [List.map_cons, List.map_nil, List.sum_cons, List.sum_nil, size_number, size_id,
    size_votes, h₁, h₂, h₃, h₄]
  omega

theorem size_optQC (o : Option QC) : (W.optQC o).size = W.optQCSize o := by
  cases o with
  | none => rfl
  | some q => exact W.size_qc q

theorem size_block (b : Block) : (W.block b).size = W.blockSize b := by
  have h₁ : quoted "View" = 6 := by decide
  have h₂ : quoted "Height" = 8 := by decide
  have h₃ : quoted "Parent" = 8 := by decide
  have h₄ : quoted "ID" = 4 := by decide
  have h₅ : quoted "Cmd" = 5 := by decide
  have h₆ : quoted "Justify" = 9 := by decide
  have h₇ : quoted "Epoch" = 7 := by decide
  rw [block, size_object, blockSize]
  simp only [List.map_cons, List.map_nil, List.sum_cons, List.sum_nil, size_number, size_id,
    size_slice, size_optQC, h₁, h₂, h₃, h₄, h₅, h₆, h₇]
  omega

theorem length_encodeMsg (m : Message) :
    (W.encodeMsg m).length = 18 + quoted m.kind + (W.data m).size := by
  have h₁ : quoted "kind" = 6 := by decide
  have h₂ : quoted "data" = 6 := by decide
  have hsize : (W.envelope m).size = 17 + quoted m.kind + (W.data m).size := by
    rw [envelope, size_object]
    simp only [List.map_cons, List.map_nil, List.sum_cons, List.sum_nil, size_string, h₁, h₂]
    omega
  change ((W.envelope m).bytes ++ [10]).length = _
  rw [List.length_append, show (W.envelope m).bytes.length = _ from hsize, List.length_singleton]
  omega

theorem length_batch {bb : BlockBatch} (hne : bb.blocks ≠ []) (hsig : bb.sig.length = 64) :
    (W.encodeMsg (.blockBatch bb)).length =
      181 + digits bb.requestID + idSize bb.anchor + idSize bb.target + quoted bb.sender +
        (bb.blocks.map fun b => W.blockSize b + 1).sum := by
  have h₀ : quoted (Message.blockBatch bb).kind = 12 := by
    change quoted "BlockBatch" = 12
    decide
  have h₁ : quoted "request_id" = 12 := by decide
  have h₂ : quoted "anchor" = 8 := by decide
  have h₃ : quoted "target" = 8 := by decide
  have h₄ : quoted "blocks" = 8 := by decide
  have h₅ : quoted "from" = 6 := by decide
  have h₆ : quoted "sig" = 5 := by decide
  have hsome : bb.sig ≠ [] := by
    intro h
    rw [h] at hsig
    cases hsig
  have hblocks : (array (bb.blocks.map W.block)).size =
      1 + (bb.blocks.map fun b => W.blockSize b + 1).sum := by
    rw [size_array, List.map_map]
    simp only [Function.comp_def, size_block]
    have hpos : 1 ≤ (bb.blocks.map fun b => W.blockSize b + 1).sum := by
      cases hbs : bb.blocks with
      | nil => exact absurd hbs hne
      | cons b bs =>
        rw [List.map_cons, List.sum_cons]
        omega
    omega
  rw [length_encodeMsg, data, sig, if_neg hsome, size_object]
  simp only [List.cons_append, List.nil_append, List.map_cons, List.map_nil, List.sum_cons,
    List.sum_nil, size_number, size_id, size_string, size_base64, hblocks, hsig, h₀, h₁, h₂, h₃, h₄,
    h₅, h₆]
  omega

/-- The line of a proposal without view changes, with a signature of 64 bytes. -/
theorem length_proposal {p : Proposal} (hvcs : p.viewChanges = []) (hsig : p.sig.length = 64) :
    (W.encodeMsg (.proposal p)).length = 143 + quoted p.sender + W.blockSize p.block := by
  have h₀ : quoted (Message.proposal p).kind = 10 := by
    change quoted "Proposal" = 10
    decide
  have h₁ : quoted "block" = 7 := by decide
  have h₂ : quoted "from" = 6 := by decide
  have h₃ : quoted "sig" = 5 := by decide
  have hsome : p.sig ≠ [] := by
    intro h
    rw [h] at hsig
    cases hsig
  rw [length_encodeMsg, data, sig, if_neg hsome, viewChanges, if_pos hvcs, size_object]
  simp only [List.cons_append, List.nil_append, List.map_cons, List.map_nil, List.sum_cons,
    List.sum_nil, size_string, size_base64, size_block, hsig, h₀, h₁, h₂, h₃]
  omega

theorem sliceSize_le (s : Slot) (bs : Bytes) :
    W.sliceSize s bs ≤ 4 + 4 * ((bs.length + 2) / 3) := by
  unfold sliceSize
  split <;> omega

theorem votesSize_le (q : QC) : W.votesSize q ≤
    4 + (q.votes.entries.map fun e => quoted e.1 + 6 + 4 * ((e.2.length + 2) / 3)).sum := by
  have hsum : (q.votes.entries.map fun e => quoted e.1 + W.sliceSize (.vote q e.1) e.2 + 2).sum ≤
      (q.votes.entries.map fun e => quoted e.1 + 6 + 4 * ((e.2.length + 2) / 3)).sum := by
    refine List.sum_le_sum fun e _ => ?_
    have hslice := W.sliceSize_le (.vote q e.1) e.2
    omega
  unfold votesSize
  split <;> omega

end Wire

/-! ## 3. What is read -/

/-- `maxWireLine`: 4 MiB. -/
def maxWireLine : ℕ := 4 * 2 ^ 20

/-- The buffer of `bufio.NewReader`. -/
def readBuffer : ℕ := 4096

inductive ReadError where
  | tooLong
  | ended
deriving DecidableEq, Repr

/-- The loop of `readWireLine`: the limit is checked before the reader waits for more. -/
def readWireLineLoop : (fuel : ℕ) → (buf input : List UInt8) →
    Except ReadError (List UInt8 × List UInt8)
  | 0, _, _ => .error .ended
  | fuel + 1, buf, input =>
    let (chunk, short, rest) := readSlice readBuffer 10 input
    let buf := buf ++ chunk
    if maxWireLine ≤ buf.length then .error .tooLong
    else match short with
      | none => .ok (buf, rest)
      | some .bufferFull => readWireLineLoop fuel buf rest
      | some .ended => .error .ended

/-- `readWireLine` on what the connection delivers: the line, and what follows it.  Every chunk but
the last is a full buffer. -/
def readWireLine (input : List UInt8) : Except ReadError (List UInt8 × List UInt8) :=
  readWireLineLoop (input.length + 1) [] input

/-- By the chunks of the line: what counts is the length of all of them. -/
theorem readWireLineLoop_line : ∀ (fuel : ℕ) (buf line rest : List UInt8), 10 ∉ line →
    line.length < fuel → readWireLineLoop fuel buf (line ++ 10 :: rest) =
      if buf.length + line.length + 1 < maxWireLine then .ok (buf ++ line ++ [10], rest)
      else .error .tooLong
  | 0, _, _, _, _, hfuel => absurd hfuel (Nat.not_lt_zero _)
  | fuel + 1, buf, line, rest, hline, hfuel => by
    unfold readWireLineLoop
    by_cases hlen : line.length < readBuffer
    · rw [readSlice_short hline hlen]
      simp only [List.length_append, List.length_singleton, ← List.append_assoc]
      split_ifs
      · omega
      · rfl
      · rfl
      · omega
    · have hle := Nat.le_of_not_lt hlen
      have hbuf : 0 < readBuffer := by decide
      rw [readSlice_long hline hle]
      simp only [List.length_append, List.length_take, Nat.min_eq_left hle]
      have ih := readWireLineLoop_line fuel (buf ++ line.take readBuffer) (line.drop readBuffer) rest
        (fun h => hline (List.mem_of_mem_drop h)) (by rw [List.length_drop]; omega)
      rw [ih, List.append_assoc buf, List.take_append_drop]
      simp only [List.length_append, List.length_take, List.length_drop, Nat.min_eq_left hle]
      split_ifs <;> first | rfl | omega

/-- **A message is read back if its line is shorter than the limit**, and is refused otherwise. -/
theorem readWireLine_encodeMsg (W : Wire) (m : Message) (rest : List UInt8) :
    readWireLine (W.encodeMsg m ++ rest) =
      if (W.encodeMsg m).length < maxWireLine then .ok (W.encodeMsg m, rest)
      else .error .tooLong := by
  have hline : W.encodeMsg m ++ rest = (W.envelope m).bytes ++ 10 :: rest := by
    rw [Wire.encodeMsg, List.append_assoc, List.singleton_append]
  unfold readWireLine
  rw [hline, readWireLineLoop_line _ [] _ rest (W.envelope m).oneLine
    (by rw [List.length_append]; omega)]
  simp only [Wire.encodeMsg, List.length_append, List.length_singleton, List.length_nil, zero_add,
    List.nil_append]

/-! ## 4. The answer to a range request -/

theorem answerTo_inv {E : Env} {p : Replica} {g : GetBlocks} {bb : BlockBatch}
    (h : p.answerTo E g = some bb) : ∃ t, p.blocks.lookup g.target = some t ∧
      bb.blocks = (p.stretch g.anchor t).reverse.take Replica.maxSyncBlocks ∧ bb.blocks ≠ [] ∧
      bb.requestID = g.requestID ∧ bb.anchor = g.anchor ∧ bb.target = g.target ∧
      bb.sender = p.id ∧ ∃ m, bb.sig = E.sign p.priv m := by
  rw [answerTo_spec] at h
  split at h
  next hcond =>
    obtain rfl := Option.some.inj h
    have hne := hcond.2
    cases ht : p.blocks.lookup g.target with
    | none => exact absurd (by rw [Replica.collectRangeLocked, ht]) hne
    | some t =>
      have hrange : p.collectRangeLocked g.anchor g.target =
          (p.stretch g.anchor t).reverse.take Replica.maxSyncBlocks := by
        unfold Replica.collectRangeLocked at hne ⊢
        rw [ht] at hne ⊢
        dsimp only at hne ⊢
        split at hne
        next hany => rw [if_pos hany, Replica.stretch]
        · exact absurd rfl hne
      exact ⟨t, rfl, hrange, hne, rfl, rfl, rfl, rfl, _, rfl⟩
  · cases h

/-- **When the answer to a range request can be read.**  Ed25519 signatures have 64 bytes.  The
answer is read if and only if its frame and the at most 512 blocks above the anchor stay below the
limit together. -/
theorem batch_line_readable (W : Wire) {E : Env} (hsig : ∀ priv m, (E.sign priv m).length = 64)
    {p : Replica} {g : GetBlocks} {bb : BlockBatch} (hbb : p.answerTo E g = some bb)
    (rest : List UInt8) : ∃ t, p.blocks.lookup g.target = some t ∧
      (readWireLine (W.encodeMsg (.blockBatch bb) ++ rest) =
          .ok (W.encodeMsg (.blockBatch bb), rest) ↔
        181 + digits g.requestID + Wire.idSize g.anchor + Wire.idSize g.target + quoted p.id +
          (((p.stretch g.anchor t).reverse.take Replica.maxSyncBlocks).map fun b =>
            W.blockSize b + 1).sum < maxWireLine) := by
  obtain ⟨t, ht, hblocks, hne, hreq, hanchor, htarget, hsender, m, hm⟩ := answerTo_inv hbb
  have hlen := W.length_batch hne (by rw [hm]; exact hsig p.priv m)
  rw [hblocks, hreq, hanchor, htarget, hsender] at hlen
  refine ⟨t, ht, ?_⟩
  rw [readWireLine_encodeMsg, ← hlen]
  constructor
  · intro h
    by_contra hlong
    rw [if_neg hlong] at h
    cases h
  · intro h
    rw [if_pos h]

/-! A branch of two blocks is read. -/

namespace TwoBlocks

open Uniform (env)

def wire : Wire where
  sha256 _ _ _ _ := String.ofList (List.replicate 64 (Char.ofNat 48))
  isNil _ := true
  sha256_length _ _ _ _ := by decide +kernel
  sha256_hex _ _ _ _ c hc := by
    rw [String.toList_ofList] at hc
    rw [List.eq_of_mem_replicate hc]
    decide

/-- `L1` after two proposals. -/
def node : Replica :=
  ((Host.machine env (Script.setup "L1" 1)).play (Script.boot env (Script.setup "L1" 1))
    (Following.normal.take 2)).node

def request : GetBlocks :=
  { requestID := 1, anchor := genesisID, target := Following.b2, dest := "L1", sender := "L2" }

end TwoBlocks

theorem batch_line_readable_two :
    ∃ bb, TwoBlocks.node.answerTo Uniform.env TwoBlocks.request = some bb ∧
      readWireLine (TwoBlocks.wire.encodeMsg (.blockBatch bb) ++ []) =
        .ok (TwoBlocks.wire.encodeMsg (.blockBatch bb), []) := by
  obtain ⟨bb, hbb⟩ : ∃ bb, TwoBlocks.node.answerTo Uniform.env TwoBlocks.request = some bb :=
    Option.isSome_iff_exists.mp (by decide +kernel)
  obtain ⟨t, ht, hiff⟩ :=
    batch_line_readable TwoBlocks.wire (fun _ _ => List.length_replicate) hbb []
  have htip : TwoBlocks.node.blocks.lookup TwoBlocks.request.target =
      some (Script.blockOf Following.b2 Following.qc1 0) := by decide +kernel
  obtain rfl := Option.some.inj (ht.symm.trans htip)
  exact ⟨bb, hbb, hiff.mpr (by decide +kernel)⟩

/-! ## 5. Four hundred blocks of 8 KiB

`L1` follows `L0` through them.  Each came in a proposal that was short enough; asked for the branch,
`L1` sends a line of more than 4 MiB, and so it does every time it is asked. -/

namespace Line

variable {E : Env} {leader0 : String} {set : ValidatorSet} {root : Block}
  {L : Line E leader0 set root} {n₀ n : Replica} {pos : Position} {k : ℕ}

theorem At.walk (h : L.At n₀ pos n) (htip : pos.tip ≤ L.length) : ∀ (k fuel : ℕ), k ≤ pos.tip →
    k ≤ fuel → HotStuff.walk n.blocks fuel (L.block k) = ((List.range (k + 1)).map L.block).reverse
  | 0, 0, _, _ => rfl
  | 0, fuel + 1, _, _ => by
    rw [HotStuff.walk, block_zero, if_pos L.isRoot.parent_eq]
    rfl
  | k + 1, fuel + 1, hk, hfuel => by
    have hpar : (L.block (k + 1)).parent = (L.block k).id := L.parent_eq (by omega)
    have hlook : n.blocks.lookup (L.block k).id = some (L.block k) := h.lookup htip (by omega)
    rw [HotStuff.walk, hpar, if_neg (id_ne_noID (by omega)), hlook]
    dsimp only
    rw [h.walk htip k fuel (by omega) (by omega), List.range_succ (n := k + 1), List.map_append,
      List.reverse_append]
    rfl

theorem depth_eq (hk : k ≤ L.length) : (L.block k).id.depth = k := by
  induction k with
  | zero =>
    rw [block_zero, L.isRoot.id_eq]
    rfl
  | succ k ih =>
    have hnext := next (L := L) (k := k) (by omega)
    rw [block_succ, hnext.addressed]
    change (L.proposal (k + 1)).block.parent.depth + 1 = k + 1
    rw [hnext.parent, ih (by omega)]

theorem At.path (h : L.At n₀ pos n) (htip : pos.tip ≤ L.length) (hk : k ≤ pos.tip) :
    n.path (L.block k) = ((List.range (k + 1)).map L.block).reverse := by
  refine h.walk htip k _ hk ?_
  cases k with
  | zero => exact Nat.zero_le _
  | succ k => rw [L.parent_eq (by omega), depth_eq (by omega)]

theorem At.collectRangeLocked (h : L.At n₀ pos n) (htip : pos.tip ≤ L.length) (hk : k ≤ pos.tip) :
    n.collectRangeLocked genesisID (L.block k).id =
      ((List.range k).map fun i => L.block (i + 1)).take Replica.maxSyncBlocks := by
  have hany : (n.path (L.block k)).any (fun b => b.id = genesisID) = true := by
    rw [h.path htip hk, List.any_eq_true]
    exact ⟨L.block 0, List.mem_reverse.mpr (List.mem_map.mpr ⟨0, by simp, rfl⟩), by simp [L.isRoot.id_eq]⟩
  have habove : (n.path (L.block k)).takeWhile (fun b => b.id ≠ genesisID) =
      ((List.range k).map fun i => L.block (i + 1)).reverse := by
    rw [h.path htip hk, List.range_succ_eq_map, List.map_cons, List.map_map, List.reverse_cons,
      List.takeWhile_append_of_pos, List.takeWhile_cons_of_neg, List.append_nil]
    · rfl
    · simp [L.isRoot.id_eq]
    · intro b hb
      obtain ⟨i, hi, rfl⟩ := List.mem_map.mp (List.mem_reverse.mp hb)
      have hlt : i < k := List.mem_range.mp hi
      simpa using id_ne_genesis (L := L) (k := i) (by omega)
  unfold Replica.collectRangeLocked
  rw [h.lookup htip hk]
  dsimp only
  rw [if_pos hany, habove, List.reverse_reverse]

end Line

namespace Bulky

open Uniform (proposal line follower)

theorem optQCSize_le (W : Wire) (cmd : Bytes) (k : ℕ) (hk : k < 10 ^ 20) :
    W.optQCSize (proposal cmd (k + 1)).block.justify ≤ 400 := by
  have h₀ : digits 0 = 1 := by decide
  cases k with
  | zero =>
    have hvotes := W.votesSize_le Script.root
    have hsum : (Script.root.votes.entries.map fun e =>
        quoted e.1 + 6 + 4 * ((e.2.length + 2) / 3)).sum ≤ 100 := by decide +kernel
    have hid : Wire.idSize genesisID = 9 := by decide
    change 39 + digits 0 + Wire.idSize genesisID + digits 0 + W.votesSize Script.root ≤ 400
    omega
  | succ k =>
    have hvotes := W.votesSize_le
      (Script.certify 0 (Script.idAt (fun _ => cmd) (k + 1)) ["L0", "L1", "L2"])
    have hsum : ((Script.certify 0 genesisID ["L0", "L1", "L2"]).votes.entries.map fun e =>
        quoted e.1 + 6 + 4 * ((e.2.length + 2) / 3)).sum ≤ 100 := by decide +kernel
    change _ ≤ 4 + ((Script.certify 0 genesisID ["L0", "L1", "L2"]).votes.entries.map fun e =>
        quoted e.1 + 6 + 4 * ((e.2.length + 2) / 3)).sum at hvotes
    have hdigits : digits (k + 1) ≤ 20 := digits_le (by decide) hk
    change 39 + digits 0 + 66 + digits (k + 1) + W.votesSize
      (Script.certify 0 (Script.idAt (fun _ => cmd) (k + 1)) ["L0", "L1", "L2"]) ≤ 400
    omega

theorem idSize_le (cmd : Bytes) (k : ℕ) : Wire.idSize (Script.idAt (fun _ => cmd) k) ≤ 66 := by
  cases k with
  | zero =>
    change Wire.idSize genesisID ≤ 66
    decide
  | succ k => exact le_refl 66

variable {cmd : Bytes}

theorem blockSize_bounds (W : Wire) (hne : cmd ≠ []) (k : ℕ) (hk : k + 1 < 10 ^ 20) :
    4 * ((cmd.length + 2) / 3) ≤ W.blockSize (proposal cmd (k + 1)).block ∧
      W.blockSize (proposal cmd (k + 1)).block ≤ 700 + 4 * ((cmd.length + 2) / 3) := by
  have h₀ : digits 0 = 1 := by decide
  have hdigits : digits (k + 1) ≤ 20 := digits_le (by decide) hk
  have hid := idSize_le cmd k
  have hqc := optQCSize_le W cmd k (by omega)
  have hslice : W.sliceSize (.cmd (proposal cmd (k + 1)).block) cmd =
      2 + 4 * ((cmd.length + 2) / 3) := if_neg fun h => hne h.1
  have hsize : W.blockSize (proposal cmd (k + 1)).block = 62 + digits 0 + digits (k + 1) +
      Wire.idSize (Script.idAt (fun _ => cmd) k) + 66 +
      W.sliceSize (.cmd (proposal cmd (k + 1)).block) cmd +
      W.optQCSize (proposal cmd (k + 1)).block.justify + digits 0 := rfl
  omega

theorem blockSize_genesis (W : Wire) : W.blockSize (genesisBlock follower.all).1 ≤ 700 := by
  have h₀ : digits 0 = 1 := by decide
  have hno : Wire.idSize noID = 2 := by decide
  have hid : Wire.idSize genesisID = 9 := by decide
  have hvotes := W.votesSize_le (genesisBlock follower.all).2
  have hsum : ((genesisBlock follower.all).2.votes.entries.map fun e =>
      quoted e.1 + 6 + 4 * ((e.2.length + 2) / 3)).sum ≤ 100 := by decide +kernel
  have hcmd := W.sliceSize_le (.cmd (genesisBlock follower.all).1) []
  have hsize : W.blockSize (genesisBlock follower.all).1 = 62 + digits 0 + digits 0 +
      Wire.idSize noID + Wire.idSize genesisID + W.sliceSize (.cmd (genesisBlock follower.all).1) [] +
      (39 + digits 0 + Wire.idSize genesisID + digits 0 +
        W.votesSize (genesisBlock follower.all).2) + digits 0 := rfl
  rw [List.length_nil] at hcmd
  omega

/-- A block as it is sent to the followers. -/
def sent (b : Block) : Proposal :=
  { block := b, sender := "L0", viewChanges := [], sig := List.replicate 64 0 }

theorem sent_fits (W : Wire) {length : ℕ} (hcmd : cmd.length = 8192) (hlen : length ≤ 512) {k : ℕ}
    (hk : k ≤ length) :
    (W.encodeMsg (.proposal (sent ((line cmd length).block k)))).length < maxWireLine := by
  have hsender : quoted "L0" = 4 := by decide
  have hmax : maxWireLine = 4194304 := by decide
  have hline := W.length_proposal (p := sent ((line cmd length).block k)) rfl
    (List.length_replicate ..)
  have hblock : W.blockSize ((line cmd length).block k) ≤ 11624 := by
    cases k with
    | zero => exact (blockSize_genesis W).trans (by decide)
    | succ k =>
      have hne : cmd ≠ [] := by
        intro h
        rw [h] at hcmd
        cases hcmd
      have hbounds := (blockSize_bounds W hne k (by omega)).2
      rw [hcmd] at hbounds
      exact hbounds
  change _ = 143 + quoted "L0" + W.blockSize ((line cmd length).block k) at hline
  omega

/-- A range request for a block of the chain. -/
def request (id : BlockID) : GetBlocks :=
  { requestID := 1, anchor := genesisID, target := id, dest := "L1", sender := "L2" }

end Bulky

/-- **A branch that cannot be fetched.**  `L1` has followed `L0` through 400 blocks of 8 KiB, each of
which fits a proposal's line.  Its answer to a request for them is refused by every reader. -/
theorem batch_line_unreadable :
    ∃ n bb, (Host.start (Script.setup "L1" 1) Uniform.follower).node.follow Uniform.env
        (Uniform.arriving (List.replicate 8192 0) (List.range' 1 400)) = some n ∧
      (∀ (W : Wire), ∀ b ∈ n.blocks.values, ∃ p : Proposal, p.block = b ∧
        (W.encodeMsg (.proposal p)).length < maxWireLine) ∧
      n.answerTo Uniform.env (Bulky.request n.head) = some bb ∧
      ∀ (W : Wire) (rest : List UInt8),
        readWireLine (W.encodeMsg (.blockBatch bb) ++ rest) = .error .tooLong := by
  generalize hcmd : List.replicate 8192 (0 : UInt8) = cmd
  have hlen : cmd.length = 8192 := by rw [← hcmd, List.length_replicate]
  have hne : cmd ≠ [] := by
    intro h
    rw [h] at hlen
    cases hlen
  have h₀ : (Script.setup "L1" 1).fresh Uniform.env = .ok Uniform.follower := rfl
  have honly : ∀ k ∈ List.range' 1 400, 1 ≤ k ∧ k ≤ 400 := by
    intro k hk
    rw [List.mem_range'_1] at hk
    omega
  have hevery : ∀ k < 400, k + 1 ∈ List.range' 1 400 := by
    intro k hk
    rw [List.mem_range'_1]
    omega
  obtain ⟨n, shelf, hn, h⟩ := (Uniform.delivers cmd _ honly hevery).follow
    (Line.Fresh.start (Uniform.line cmd 400) h₀ (by decide +kernel))
    (Line.Climbing.start (Uniform.line cmd 400) h₀ (by decide +kernel))
  have hfits : ∀ (W : Wire), ∀ b ∈ n.blocks.values, ∃ p : Proposal, p.block = b ∧
      (W.encodeMsg (.proposal p)).length < maxWireLine := by
    intro W b hb
    obtain ⟨id, hid⟩ := GoMap.mem_values_iff.mp hb
    rw [h.blocks] at hid
    obtain ⟨k, hk, rfl, -⟩ := (Line.lookup_tree (le_refl 400)).mp hid
    have hk : k ≤ 400 := hk
    exact ⟨_, rfl, Bulky.sent_fits W hlen (by decide) hk⟩
  have hknown : n.knownMemberLocked "L2" = true := by
    have hsets : n.sets = Uniform.follower.sets := by
      rw [h.same]
      rfl
    unfold Replica.knownMemberLocked
    rw [hsets]
    decide +kernel
  have hrange : n.collectRangeLocked genesisID n.head =
      (List.range 400).map fun i => (Uniform.line cmd 400).block (i + 1) := by
    have hhead : n.head = ((Uniform.line cmd 400).block 400).id := h.head
    rw [hhead, h.collectRangeLocked (le_refl 400) (le_refl 400)]
    exact List.take_of_length_le (by rw [List.length_map, List.length_range]; decide)
  have hsome : n.collectRangeLocked genesisID n.head ≠ [] := by
    intro hnil
    have hzero := congrArg List.length hrange
    rw [hnil, List.length_map, List.length_range] at hzero
    cases hzero
  refine ⟨n, _, hn, hfits, (answerTo_spec _).trans (if_pos ⟨hknown, hsome⟩), fun W rest => ?_⟩
  rw [readWireLine_encodeMsg, if_neg]
  have hlong : 400 * 10924 ≤
      ((n.collectRangeLocked genesisID n.head).map fun b => W.blockSize b + 1).sum := by
    rw [hrange]
    have hsum := List.card_nsmul_le_sum (((List.range 400).map fun i =>
      (Uniform.line cmd 400).block (i + 1)).map fun b => W.blockSize b + 1) 10924 fun x hx => ?_
    · simpa using hsum
    · obtain ⟨b, hb, rfl⟩ := List.mem_map.mp hx
      obtain ⟨i, hi, rfl⟩ := List.mem_map.mp hb
      have hi : i < 400 := List.mem_range.mp hi
      have hbounds := (Bulky.blockSize_bounds W hne i (by omega)).1
      rw [hlen] at hbounds
      exact Nat.le_succ_of_le hbounds
  have hmax : maxWireLine = 4194304 := by decide
  rw [W.length_batch hsome (List.length_replicate ..), hmax]
  change ¬ (_ + ((n.collectRangeLocked genesisID n.head).map fun b => W.blockSize b + 1).sum < _)
  omega

end Cachey.HotStuff
