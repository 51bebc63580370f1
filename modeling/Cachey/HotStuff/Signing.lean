/-
# What a signature covers

`canonicalSignable` (`auth.go`): a message is encoded as a JSON object, the field `sig` is dropped,
and the rest is encoded again with its keys in order.  Nothing in it names the TYPE of the message,
so that two messages of different types are told apart by their keys alone, and an `omitempty`
field that is empty has no key.

* `Json` is `encoding/json` on the types of the fields, each of them injective.
* `canonicalSignable_eq_iff`: the canonical texts of two messages are equal exactly when what
  `Signable` keeps of them is, so that the engine's model may sign and verify `Signable`.
* `signable_separates_iff`: equal texts come from equal messages, but for ONE pair of types.  A
  `Proposal` without view changes and a `BlockMsg` have the same two keys.
-/
import Cachey.HotStuff.Types
import Mathlib.Data.Countable.Basic
import Mathlib.Logic.Equiv.List
import Mathlib.Tactic.DeriveCountable

namespace Cachey.HotStuff

/-! ## 1. Encoding -/

/-- `encoding/json` on the types of the fields. -/
structure Json (Raw : Type) where
  nat : ℕ → Raw
  text : String → Raw
  id : BlockID → Raw
  bytes : Bytes → Raw
  qc : Option QC → Raw
  block : Block → Raw
  blocks : List Block → Raw
  viewChanges : List ViewChange → Raw
  nat_injective : Function.Injective nat
  text_injective : Function.Injective text
  id_injective : Function.Injective id
  qc_injective : Function.Injective qc
  block_injective : Function.Injective block
  blocks_injective : Function.Injective blocks
  viewChanges_injective : Function.Injective viewChanges

namespace Json

variable {Raw : Type} (J : Json Raw)

@[simp]
theorem nat_inj {n n' : ℕ} : J.nat n = J.nat n' ↔ n = n' := J.nat_injective.eq_iff

@[simp]
theorem text_inj {t t' : String} : J.text t = J.text t' ↔ t = t' := J.text_injective.eq_iff

@[simp]
theorem id_inj {i i' : BlockID} : J.id i = J.id i' ↔ i = i' := J.id_injective.eq_iff

@[simp]
theorem qc_inj {q q' : Option QC} : J.qc q = J.qc q' ↔ q = q' := J.qc_injective.eq_iff

@[simp]
theorem block_inj {b b' : Block} : J.block b = J.block b' ↔ b = b' := J.block_injective.eq_iff

@[simp]
theorem blocks_inj {l l' : List Block} : J.blocks l = J.blocks l' ↔ l = l' :=
  J.blocks_injective.eq_iff

@[simp]
theorem viewChanges_inj {l l' : List ViewChange} : J.viewChanges l = J.viewChanges l' ↔ l = l' :=
  J.viewChanges_injective.eq_iff

end Json

/-- A message of one of the signed types. -/
inductive SignedMessage where
  | proposal (p : Proposal)
  | vote (v : Vote)
  | viewChange (vc : ViewChange)
  | block (bm : BlockMsg)
  | blockBatch (bb : BlockBatch)
deriving DecidableEq

/-- A field with `omitempty`. -/
def omitEmpty {Raw α : Type} (key : String) (encode : List α → Raw) : List α → List (String × Raw)
  | [] => []
  | a :: rest => [(key, encode (a :: rest))]

namespace SignedMessage

variable {Raw : Type}

/-- `json.Marshal`: the fields in the order of their declaration. -/
def marshal (J : Json Raw) : SignedMessage → List (String × Raw)
  | proposal p =>
    [("block", J.block p.block), ("from", J.text p.sender)] ++
      omitEmpty "view_changes" J.viewChanges p.viewChanges ++ omitEmpty "sig" J.bytes p.sig
  | vote v =>
    [("height", J.nat v.height), ("node_id", J.id v.nodeID), ("voter", J.text v.voter)] ++
      omitEmpty "sig" J.bytes v.sig
  | viewChange vc =>
    [("view", J.nat vc.view), ("epoch", J.nat vc.epoch), ("high_qc", J.qc vc.highQC),
      ("from", J.text vc.sender)] ++ omitEmpty "sig" J.bytes vc.sig
  | block bm =>
    [("block", J.block bm.block), ("from", J.text bm.sender)] ++ omitEmpty "sig" J.bytes bm.sig
  | blockBatch bb =>
    [("request_id", J.nat bb.requestID), ("anchor", J.id bb.anchor), ("target", J.id bb.target),
      ("blocks", J.blocks bb.blocks), ("from", J.text bb.sender)] ++
      omitEmpty "sig" J.bytes bb.sig

/-- `canonicalSignable`: without `sig`, the keys in order. -/
def canonicalSignable (J : Json Raw) (m : SignedMessage) : List (String × Raw) :=
  ((m.marshal J).filter fun f => f.1 ≠ "sig").insertionSort fun f g => f.1 ≤ g.1

def signable : SignedMessage → Signable
  | proposal p => p.signable
  | vote v => v.signable
  | viewChange vc => vc.signable
  | block bm => bm.signable
  | blockBatch bb => bb.signable

def unsigned : SignedMessage → SignedMessage
  | proposal p => proposal { p with sig := [] }
  | vote v => vote { v with sig := [] }
  | viewChange vc => viewChange { vc with sig := [] }
  | block bm => block { bm with sig := [] }
  | blockBatch bb => blockBatch { bb with sig := [] }

/-! ## 2. The canonical texts -/

section Texts

variable (J : Json Raw)

theorem filter_sig {α : Type} (encode : List α → Raw) (l : List α) :
    (omitEmpty "sig" encode l).filter (fun f => f.1 ≠ "sig") = [] := by
  cases l <;> rfl

theorem canonicalSignable_of_marshal {m : SignedMessage} {fields : List (String × Raw)}
    {sig : Bytes} (h : m.marshal J = fields ++ omitEmpty "sig" J.bytes sig) :
    m.canonicalSignable J =
      (fields.filter fun f => f.1 ≠ "sig").insertionSort fun f g => f.1 ≤ g.1 := by
  rw [canonicalSignable, h, List.filter_append, filter_sig, List.append_nil]

theorem canonicalSignable_proposal (p : Proposal) : canonicalSignable J (.proposal p) =
    [("block", J.block p.block), ("from", J.text p.sender)] ++
      omitEmpty "view_changes" J.viewChanges p.viewChanges := by
  rw [canonicalSignable_of_marshal J (m := .proposal p) rfl]
  cases p.viewChanges <;> simp [omitEmpty]

theorem canonicalSignable_vote (v : Vote) : canonicalSignable J (.vote v) =
    [("height", J.nat v.height), ("node_id", J.id v.nodeID), ("voter", J.text v.voter)] := by
  rw [canonicalSignable_of_marshal J (m := .vote v) rfl]
  simp

theorem canonicalSignable_viewChange (vc : ViewChange) : canonicalSignable J (.viewChange vc) =
    [("epoch", J.nat vc.epoch), ("from", J.text vc.sender), ("high_qc", J.qc vc.highQC),
      ("view", J.nat vc.view)] := by
  rw [canonicalSignable_of_marshal J (m := .viewChange vc) rfl]
  simp

theorem canonicalSignable_block (bm : BlockMsg) : canonicalSignable J (.block bm) =
    [("block", J.block bm.block), ("from", J.text bm.sender)] := by
  rw [canonicalSignable_of_marshal J (m := .block bm) rfl]
  simp

theorem canonicalSignable_blockBatch (bb : BlockBatch) : canonicalSignable J (.blockBatch bb) =
    [("anchor", J.id bb.anchor), ("blocks", J.blocks bb.blocks), ("from", J.text bb.sender),
      ("request_id", J.nat bb.requestID), ("target", J.id bb.target)] := by
  rw [canonicalSignable_of_marshal J (m := .blockBatch bb) rfl]
  simp

theorem omitEmpty_viewChanges_inj {l l' : List ViewChange} :
    omitEmpty "view_changes" J.viewChanges l = omitEmpty "view_changes" J.viewChanges l' ↔
      l = l' := by
  cases l <;> cases l' <;> simp [omitEmpty]

/-- A proposal's text is a block message's exactly when it carries no view changes. -/
theorem canonicalSignable_proposal_block (p : Proposal) (bm : BlockMsg) :
    canonicalSignable J (.proposal p) = canonicalSignable J (.block bm) ↔
      p.signable = bm.signable := by
  rw [canonicalSignable_proposal, canonicalSignable_block, Proposal.signable, BlockMsg.signable]
  cases p.viewChanges <;> simp [omitEmpty]

theorem canonicalSignable_eq_iff (m m' : SignedMessage) :
    m.canonicalSignable J = m'.canonicalSignable J ↔ m.signable = m'.signable := by
  cases m <;> cases m'
  case proposal.block p bm => exact canonicalSignable_proposal_block J p bm
  case block.proposal bm p =>
    rw [eq_comm, canonicalSignable_proposal_block J p bm, eq_comm]
    rfl
  -- two texts of one type have one value per key; of any other two types the keys differ
  all_goals
    simp [canonicalSignable_proposal, canonicalSignable_vote, canonicalSignable_viewChange,
      canonicalSignable_block, canonicalSignable_blockBatch, omitEmpty_viewChanges_inj, signable,
      Proposal.signable, Vote.signable, ViewChange.signable, BlockMsg.signable,
      BlockBatch.signable]
  all_goals grind

end Texts

/-! ## 3. Domain separation -/

/-- The two messages share their canonical text though their types differ: a proposal that carries
no view changes, and the answer to a fetch of its block by the same sender. -/
def Confusable : SignedMessage → SignedMessage → Prop
  | proposal p, block bm => p.viewChanges = [] ∧ p.block = bm.block ∧ p.sender = bm.sender
  | block bm, proposal p => p.viewChanges = [] ∧ p.block = bm.block ∧ p.sender = bm.sender
  | _, _ => False

theorem signable_eq_iff (m m' : SignedMessage) :
    m.signable = m'.signable ↔ m.unsigned = m'.unsigned ∨ Confusable m m' := by
  cases m <;> cases m' <;>
    simp only [signable, Proposal.signable, Vote.signable, ViewChange.signable, BlockMsg.signable,
      BlockBatch.signable, unsigned, Confusable]
  all_goals simp
  all_goals grind

theorem unsigned_ne_of_confusable {m m' : SignedMessage} (h : Confusable m m') :
    m.unsigned ≠ m'.unsigned := by
  cases m <;> cases m' <;> simp_all [Confusable, unsigned]

/-- An ideal signature scheme: only the text that was signed verifies.  Forgery is not the subject
here; the question is which messages one signature covers. -/
structure Ed25519 (Text : Type) where
  sign : Bytes → Text → Bytes
  verify : Bytes → Text → Bytes → Bool
  publicKey : Bytes → Bytes
  verify_sign_iff : ∀ priv t t', verify (publicKey priv) t' (sign priv t) = true ↔ t = t'

def signPayload (S : Ed25519 (List (String × Raw))) (J : Json Raw) (priv : Bytes)
    (m : SignedMessage) : Bytes :=
  S.sign priv (m.canonicalSignable J)

def verifyPayload (S : Ed25519 (List (String × Raw))) (J : Json Raw) (pub sig : Bytes)
    (m : SignedMessage) : Bool :=
  S.verify pub (m.canonicalSignable J) sig

theorem verifyPayload_signPayload_iff (S : Ed25519 (List (String × Raw))) (J : Json Raw)
    (priv : Bytes) (m m' : SignedMessage) :
    verifyPayload S J (S.publicKey priv) (signPayload S J priv m) m' = true ↔
      m.canonicalSignable J = m'.canonicalSignable J :=
  S.verify_sign_iff priv _ _

/-- Equal canonical texts come from one type and equal fields, and so does a signature that
verifies on a message, for every two messages but a proposal without view changes and a block
message of the same block and sender. -/
theorem signable_separates_iff (J : Json Raw) (m m' : SignedMessage) :
    ((m.canonicalSignable J = m'.canonicalSignable J → m.unsigned = m'.unsigned) ∧
      ∀ (S : Ed25519 (List (String × Raw))) (priv : Bytes),
        verifyPayload S J (S.publicKey priv) (signPayload S J priv m) m' = true →
          m.unsigned = m'.unsigned) ↔
      ¬ Confusable m m' := by
  simp only [verifyPayload_signPayload_iff, canonicalSignable_eq_iff, signable_eq_iff]
  constructor
  · rintro ⟨hsame, -⟩ hconf
    exact unsigned_ne_of_confusable hconf (hsame (Or.inr hconf))
  · intro hconf
    have hsame : m.unsigned = m'.unsigned ∨ Confusable m m' → m.unsigned = m'.unsigned :=
      fun h => h.resolve_right hconf
    exact ⟨hsame, fun _ _ => hsame⟩

/-! ## 4. A fetch answered is a proposal signed -/

/-- One encoding: the value itself. -/
inductive JsonValue where
  | nat (n : ℕ)
  | text (t : String)
  | id (i : BlockID)
  | bytes (b : Bytes)
  | qc (q : Option QC)
  | block (b : Block)
  | blocks (l : List Block)
  | viewChanges (l : List ViewChange)
deriving DecidableEq

def plainJson : Json JsonValue where
  nat := .nat
  text := .text
  id := .id
  bytes := .bytes
  qc := .qc
  block := .block
  blocks := .blocks
  viewChanges := .viewChanges
  nat_injective := fun _ _ => JsonValue.nat.inj
  text_injective := fun _ _ => JsonValue.text.inj
  id_injective := fun _ _ => JsonValue.id.inj
  qc_injective := fun _ _ => JsonValue.qc.inj
  block_injective := fun _ _ => JsonValue.block.inj
  blocks_injective := fun _ _ => JsonValue.blocks.inj
  viewChanges_injective := fun _ _ => JsonValue.viewChanges.inj

instance : Countable Char :=
  Function.Injective.countable (f := Char.toNat) fun _ _ h => Char.ext (UInt32.toNat_inj.mp h)

instance : Countable String :=
  Function.Injective.countable (f := String.toList) fun _ _ => String.toList_inj.mp

instance : Countable Bytes :=
  have : Countable UInt8 := Function.Injective.countable (f := UInt8.toNat) fun _ _ => UInt8.toNat_inj.mp
  inferInstanceAs (Countable (List UInt8))

instance {K V : Type} [Countable K] [Countable V] : Countable (GoMap K V) :=
  Function.Injective.countable (f := AList.entries) fun _ _ => AList.ext

deriving instance Countable for BlockID, QC, Block, ViewChange, JsonValue

/-- **There is an ideal scheme** for any countable type of texts: a signature spells out which text it
is for. -/
theorem Ed25519.nonempty (Text : Type) [Countable Text] : Nonempty (Ed25519 Text) := by
  obtain ⟨code, hcode⟩ := exists_injective_nat Text
  refine ⟨{ sign := fun _ t => List.replicate (code t) 0
            verify := fun _ t sig => sig.length = code t
            publicKey := fun priv => priv
            verify_sign_iff := fun _ t t' => ?_ }⟩
  rw [decide_eq_true_eq, List.length_replicate]
  exact hcode.eq_iff

/-- The leader of view 0 answers a fetch of its own first block: what it signs is its proposal, under
every scheme, and there is one. -/
theorem signable_separates_fails :
    let b : Block := ⟨0, 1, genesisID, blockID 0 1 genesisID [7], [7],
      some (newQCEpoch 0 genesisID 0), 0⟩
    let answer := block ⟨b, "L0", []⟩
    let proposed := proposal ⟨b, "L0", [], []⟩
    answer.canonicalSignable plainJson = proposed.canonicalSignable plainJson ∧
      answer.unsigned ≠ proposed.unsigned ∧
      (∀ (S : Ed25519 (List (String × JsonValue))) (priv : Bytes),
        verifyPayload S plainJson (S.publicKey priv) (signPayload S plainJson priv answer)
          proposed = true) ∧
      Nonempty (Ed25519 (List (String × JsonValue))) := by
  intro b answer proposed
  have htext : answer.canonicalSignable plainJson = proposed.canonicalSignable plainJson :=
    (canonicalSignable_eq_iff plainJson answer proposed).2 rfl
  refine ⟨htext, fun h => SignedMessage.noConfusion h, fun S priv => ?_, Ed25519.nonempty _⟩
  exact (verifyPayload_signPayload_iff S plainJson priv answer proposed).2 htext

end SignedMessage

end Cachey.HotStuff
