/-
# Votes become a certificate

The leader of a block collects votes for it in `voteForBlockLocked`.  One bad vote in the set would
spoil the certificate for ever, since the flag `qcFormed` lets it be formed once only.  So the vote
is checked against exactly what a certificate is checked against later: the set of the block's
epoch, the pinned keys, and the height and id of the block.

* §1  The poll of one block (`Poll`): the votes recorded for it are those of the members with a
      valid vote among the ballots, and the certificate is formed when they are a quorum.
* §2  A leader's calls, one after another.  Nothing but a vote and a proposal touches the poll.
* §3  Every host keeps what a poll starts from: votes for blocks of the tree only (`Tallied`).
* §4  `aggregation_exact`.  The votes recorded are not looked at again, so it needs the set of the
      epoch to STAY: when a second transition replaces it in mid-poll, a certificate is formed that
      has no quorum of either set.
-/
import Cachey.HotStuff.Epochs
import Cachey.HotStuff.KnownSets
import Cachey.HotStuff.Views

namespace Cachey.HotStuff

open Wal (WriteOutcome)

/-! ## 1. The poll of one block

Votes are recorded under their voters, so a vote that comes twice counts once, and the order in
which they come does not show.  The flag `qcFormed` is raised at the vote that completes the quorum.
-/

/-- The members of `set` with a valid vote for `b` among the ballots. -/
def supporters (E : Env) (set : ValidatorSet) (b : Block) (ballots : List Vote) : Finset String :=
  ((ballots.filter fun v => v.nodeID = b.id && v.valid E set b.height).map (·.voter)).toFinset

/-- `sig` is a signature of `voter`, a member of `set`, on a vote for `b`. -/
def Endorses (E : Env) (set : ValidatorSet) (b : Block) (voter : String) (sig : Bytes) : Prop :=
  Vote.valid E set b.height { height := b.height, nodeID := b.id, voter := voter, sig := sig } = true

/-- A certificate of `b` by a quorum of `set`. -/
structure QC.Of (E : Env) (set : ValidatorSet) (b : Block) (qc : QC) : Prop where
  nodeID : qc.nodeID = b.id
  height : qc.height = b.height
  epoch : qc.epoch = b.epoch
  quorum : set.quorum ≤ qc.votes.len
  sound : ∀ voter sig, qc.votes.lookup voter = some sig → Endorses E set b voter sig

/-- The certificates of a block among the ones given. -/
def certsOf (id : BlockID) (qcs : List QC) : List QC := qcs.filter fun qc => qc.nodeID = id

/-- The state of the poll of `b`: after these ballots, with these certificates formed. -/
structure Poll (E : Env) (set : ValidatorSet) (b : Block) (ballots : List Vote) (certs : List QC)
    (n : Replica) : Prop where
  block : ∃ c, n.blocks.lookup b.id = some c ∧ c.height = b.height ∧ c.epoch = b.epoch
  voters : ∀ voter, voter ∈ n.votesOn b.id ↔ voter ∈ supporters E set b ballots
  sound : ∀ voter sig, (n.votesOn b.id).lookup voter = some sig → Endorses E set b voter sig
  formed : b.id ∈ n.qcFormed ↔ set.quorum ≤ (n.votesOn b.id).len
  certified : certsOf b.id certs ≠ [] ↔ b.id ∈ n.qcFormed
  once : (certsOf b.id certs).length ≤ 1
  genuine : ∀ qc ∈ certsOf b.id certs, qc.Of E set b

section Polls

variable {E : Env} {set : ValidatorSet} {b : Block} {ballots : List Vote}
  {certs qcs : List QC} {n n' : Replica} {v : Vote} {voter : String}

theorem mem_supporters : voter ∈ supporters E set b ballots ↔
    ∃ v ∈ ballots, v.nodeID = b.id ∧ v.valid E set b.height = true ∧ v.voter = voter := by
  simp only [supporters, List.mem_toFinset, List.mem_map, List.mem_filter, Bool.and_eq_true,
    decide_eq_true_eq, and_assoc]

theorem mem_supporters_append :
    voter ∈ supporters E set b (ballots ++ [v]) ↔ voter ∈ supporters E set b ballots ∨
      (v.nodeID = b.id ∧ v.valid E set b.height = true ∧ v.voter = voter) := by
  simp only [mem_supporters, List.mem_append, List.mem_singleton, or_and_right, exists_or,
    exists_eq_left]

theorem len_insert_of_new {V : GoMap String Bytes} (h : voter ∉ V) (sig : Bytes) :
    GoMap.len (V.insert voter sig) = GoMap.len V + 1 := by
  simp only [GoMap.len_eq_keys, AList.keys_insert, List.length_cons]
  rw [List.erase_of_not_mem h]

theorem Poll.len_votes (h : Poll E set b ballots certs n) :
    (n.votesOn b.id).len = (supporters E set b ballots).card := by
  have hkeys : (n.votesOn b.id).keys.toFinset = supporters E set b ballots := by
    ext voter
    rw [List.mem_toFinset, ← h.voters voter]
    rfl
  rw [GoMap.len_eq_keys, ← hkeys, List.toFinset_card_of_nodup (n.votesOn b.id).keys_nodup]

theorem Poll.congr (h : Poll E set b ballots certs n) (hvotes : n'.votes = n.votes)
    (hformed : n'.qcFormed = n.qcFormed)
    (hblock : ∃ c, n'.blocks.lookup b.id = some c ∧ c.height = b.height ∧ c.epoch = b.epoch) :
    Poll E set b ballots certs n' := by
  have hon : n'.votesOn b.id = n.votesOn b.id := by
    unfold Replica.votesOn
    rw [hvotes]
  exact ⟨hblock, by rw [hon]; exact h.voters, by rw [hon]; exact h.sound,
    by rw [hon, hformed]; exact h.formed, by rw [hformed]; exact h.certified, h.once, h.genuine⟩

theorem passive_votes (V : GoMap BlockID (GoMap String Bytes)) (F : List BlockID) :
    Passive fun n => n.votes = V ∧ n.qcFormed = F where
  write := by
    intro n m hn hm
    rw [hm]
    exact hn
  activate := fun _ hn => hn

theorem onNewQCLocked_votes (qc : QC) (n : Replica) : (n.onNewQCLocked E qc).votes = n.votes ∧
    (n.onNewQCLocked E qc).qcFormed = n.qcFormed ∧ (n.onNewQCLocked E qc).blocks = n.blocks := by
  obtain ⟨hvotes, hformed⟩ :=
    (passive_votes n.votes n.qcFormed).inward.onNewQCLocked (E := E) qc ⟨rfl, rfl⟩
  exact ⟨hvotes, hformed, (Folding.onNewQCLocked qc n).blocks⟩

theorem Poll.spoilt (h : Poll E set b ballots certs n)
    (hv : v.nodeID = b.id → v.valid E set b.height = true → v.voter ∈ n.votesOn b.id) :
    Poll E set b (ballots ++ [v]) certs n := by
  refine { h with voters := fun voter => ?_ }
  rw [h.voters, mem_supporters_append]
  constructor
  · exact Or.inl
  · rintro (hold | ⟨hid, hvalid, rfl⟩)
    · exact hold
    · exact (h.voters _).mp (hv hid hvalid)

theorem Poll.elsewhere (h : Poll E set b ballots certs n) (hid : v.nodeID ≠ b.id) (F : List BlockID)
    (hF : b.id ∈ F ↔ b.id ∈ n.qcFormed) (hqcs : certsOf b.id qcs = []) :
    Poll E set b (ballots ++ [v]) (certs ++ qcs) { n.recordVote v with qcFormed := F } := by
  have h := h.spoilt (v := v) fun heq => absurd heq hid
  have hon : ({ n.recordVote v with qcFormed := F } : Replica).votesOn b.id = n.votesOn b.id := by
    change (n.recordVote v).votesOn b.id = _
    rw [Replica.votesOn_recordVote, if_neg hid.symm]
  have hcerts : certsOf b.id (certs ++ qcs) = certsOf b.id certs := by
    unfold certsOf at hqcs ⊢
    rw [List.filter_append, hqcs, List.append_nil]
  exact ⟨h.block, by rw [hon]; exact h.voters, by rw [hon]; exact h.sound,
    by rw [hon, ← h.formed]; exact hF, by rw [hcerts, h.certified]; exact hF.symm,
    by rw [hcerts]; exact h.once, by rw [hcerts]; exact h.genuine⟩

theorem votesOn_recordVote_self (hid : v.nodeID = b.id) :
    (n.recordVote v).votesOn b.id = (n.votesOn b.id).insert v.voter v.sig := by
  rw [Replica.votesOn_recordVote, if_pos hid.symm, hid]

theorem Poll.sound_recordVote (h : Poll E set b ballots certs n) (hid : v.nodeID = b.id)
    (hvalid : v.valid E set b.height = true) {sig : Bytes}
    (hsig : ((n.recordVote v).votesOn b.id).lookup voter = some sig) :
    Endorses E set b voter sig := by
  rw [votesOn_recordVote_self hid, GoMap.lookup_insert_of] at hsig
  split at hsig
  next heq =>
    obtain rfl := Option.some.inj hsig
    have hheight : v.height = b.height := by
      simp only [Vote.valid, Bool.and_eq_true, decide_eq_true_eq] at hvalid
      exact hvalid.1.2
    unfold Endorses
    rw [heq, ← hid, ← hheight]
    rw [← hheight] at hvalid
    exact hvalid
  next => exact h.sound voter sig hsig

theorem Poll.supported (h : Poll E set b ballots certs n) (hid : v.nodeID = b.id)
    (hvalid : v.valid E set b.height = true) {F : List BlockID}
    (hF : b.id ∈ F ↔ set.quorum ≤ ((n.recordVote v).votesOn b.id).len)
    (hcert : certsOf b.id (certs ++ qcs) ≠ [] ↔ b.id ∈ F)
    (honce : (certsOf b.id (certs ++ qcs)).length ≤ 1)
    (hgen : ∀ qc ∈ certsOf b.id (certs ++ qcs), qc.Of E set b) :
    Poll E set b (ballots ++ [v]) (certs ++ qcs) { n.recordVote v with qcFormed := F } := by
  refine ⟨h.block, fun voter => ?_, fun voter sig => h.sound_recordVote hid hvalid, hF, hcert,
    honce, hgen⟩
  change voter ∈ (n.recordVote v).votesOn b.id ↔ _
  rw [votesOn_recordVote_self hid, AList.mem_insert, mem_supporters_append, h.voters]
  constructor
  · rintro (rfl | hold)
    · exact Or.inr ⟨hid, hvalid, rfl⟩
    · exact Or.inl hold
  · rintro (hold | ⟨-, -, rfl⟩)
    · exact Or.inr hold
    · exact Or.inl rfl

/-- **One vote keeps the poll**, and a certificate is formed by the one that completes the
quorum. -/
theorem Poll.vote (h : Poll E set b ballots certs n) (hset : n.sets.lookup b.epoch = some set)
    (hv : Replica.Counted E v n n' qcs) : Poll E set b (ballots ++ [v]) (certs ++ qcs) n' := by
  obtain ⟨c, hc, hheight, hepoch⟩ := h.block
  -- a vote that counts for `b` counts by the set of `b`
  have hsame : ∀ {blk : Block} {set' : ValidatorSet}, v.nodeID = b.id →
      n.blocks.lookup v.nodeID = some blk → n.sets.lookup blk.epoch = some set' →
      blk = c ∧ set = set' := by
    intro blk set' hid hblk hset'
    rw [hid, hc] at hblk
    obtain rfl := Option.some.inj hblk
    rw [hepoch, hset] at hset'
    exact ⟨rfl, Option.some.inj hset'⟩
  cases hv with
  | dropped hdrop =>
    rw [List.append_nil]
    refine h.spoilt fun hid hvalid => ?_
    rw [← hid]
    refine hdrop c set (by rw [hid]; exact hc) (by rw [hepoch]; exact hset) ?_
    rw [hheight]
    exact hvalid
  | counted hblk hset' hvalid hnew hshort =>
    by_cases hid : v.nodeID = b.id
    · obtain ⟨rfl, rfl⟩ := hsame hid hblk hset'
      rw [hheight] at hvalid
      rw [hid] at hnew hshort
      have hlen : ((n.recordVote v).votesOn b.id).len = (n.votesOn b.id).len + 1 := by
        rw [votesOn_recordVote_self hid]
        exact len_insert_of_new hnew v.sig
      have hF : b.id ∈ n.qcFormed ↔ set.quorum ≤ ((n.recordVote v).votesOn b.id).len := by
        rw [h.formed]
        rcases hshort with hshort | hformed
        · omega
        · have := h.formed.mp hformed
          omega
      refine h.supported hid hvalid hF ?_ ?_ ?_
      · rw [List.append_nil]
        exact h.certified
      · rw [List.append_nil]
        exact h.once
      · rw [List.append_nil]
        exact h.genuine
    · exact h.elsewhere hid n.qcFormed Iff.rfl rfl
  | @completed blk set' hblk hset' hvalid hnew hfull hfirst =>
    obtain ⟨hvotes, hformed, hblocks⟩ := onNewQCLocked_votes (E := E)
      ((n.recordVote v).certificate blk v.nodeID)
      { n.recordVote v with qcFormed := v.nodeID :: n.qcFormed }
    refine Poll.congr (n := { n.recordVote v with qcFormed := v.nodeID :: n.qcFormed }) ?_
      hvotes hformed (by rw [hblocks]; exact h.block)
    by_cases hid : v.nodeID = b.id
    · obtain ⟨rfl, rfl⟩ := hsame hid hblk hset'
      rw [hheight] at hvalid
      rw [hid] at hnew hfull hfirst ⊢
      have hnone : certsOf b.id certs = [] := by
        by_contra hne
        exact hfirst (h.certified.mp hne)
      have hone : certsOf b.id (certs ++ [(n.recordVote v).certificate blk b.id]) =
          [(n.recordVote v).certificate blk b.id] := by
        unfold certsOf at hnone ⊢
        rw [List.filter_append, hnone]
        simp [Replica.certificate, newQCEpoch]
      refine h.supported hid hvalid (iff_of_true List.mem_cons_self hfull) ?_ ?_ ?_
      · rw [hone]
        exact iff_of_true (List.cons_ne_nil _ _) List.mem_cons_self
      · rw [hone]
        exact le_refl _
      · rw [hone]
        intro qc hqc
        obtain rfl := List.mem_singleton.mp hqc
        exact ⟨rfl, hheight, hepoch, hfull, fun voter sig => h.sound_recordVote hid hvalid⟩
    · refine h.elsewhere hid _ ?_ ?_
      · rw [List.mem_cons]
        exact ⟨fun h => h.resolve_left (Ne.symm hid), Or.inr⟩
      · simp [certsOf, Replica.certificate, newQCEpoch, hid]

end Polls

/-! ## 2. The calls of a leader

`presides` is asked of the state before each call, and of three fields only: who leads, the epoch,
and the set stored for it.  Whether a certificate comes about is left to the votes. -/

/-- A call of the engine: what it is asked, what it finds outside, how its writes end. -/
structure Call where
  input : Input
  ctx : Ctx
  writes : List WriteOutcome

namespace Replica

variable {E : Env} {C : Ctx} {n : Replica} {inp : Input}

/-- The state a call starts in. -/
def before (c : Call) (n : Replica) : Replica := { n with out := [], writes := c.writes }

def call (E : Env) (c : Call) (n : Replica) : Replica := (n.before c).handle E c.ctx c.input

/-- The votes a call hands to `voteForBlockLocked`: a vote delivered, or the leader's own for the
block it builds. -/
def ballots (E : Env) (inp : Input) (n : Replica) : List Vote :=
  match inp with
  | .propose cmd =>
    if n.id = n.leader ∧ n.active ∧ n.qcHigh.nodeID = n.head then [n.ownVote E cmd] else []
  | .deliver (.vote v) => [v]
  | _ => []

/-- The certificates `voteForBlockLocked` forms in a call. -/
def elected (E : Env) (inp : Input) (n : Replica) : List QC :=
  match inp with
  | .propose cmd =>
    if n.id = n.leader ∧ n.active ∧ n.qcHigh.nodeID = n.head
    then ((n.proposed E cmd).voteFolds E (n.ownVote E cmd)).map (·.2) else []
  | .deliver (.vote v) => if n.id = n.leader then (n.voteFolds E v).map (·.2) else []
  | _ => []

theorem propose_of_building (cmd : Bytes)
    (h : n.id = n.leader ∧ n.active = true ∧ n.qcHigh.nodeID = n.head) : ∃ o,
    (n.propose E C cmd).1 =
      { (n.proposed E cmd).voteForBlockLocked E (n.ownVote E cmd) with out := o } := by
  have hsend : ∀ (msgs : List (String × Message)) (m : Replica), ∃ o,
      m.sendAll msgs = { m with out := o } := by
    intro msgs
    induction msgs with
    | nil => exact fun m => ⟨m.out, rfl⟩
    | cons msg msgs ih =>
      intro m
      obtain ⟨o, ho⟩ := ih (m.emit (.send msg.1 msg.2))
      exact ⟨o, ho⟩
  obtain ⟨e, p, -, -, heq, -⟩ := proposeLocked_eq (E := E) (C := C) cmd n
  unfold propose
  rw [if_neg (by simp [h.1, h.2.1]), if_neg (not_not.mpr h.2.2), heq]
  exact hsend _ _

theorem propose_of_not_building {cmd : Bytes}
    (h : ¬ (n.id = n.leader ∧ n.active = true ∧ n.qcHigh.nodeID = n.head)) :
    (n.propose E C cmd).1 = n := by
  unfold propose
  by_cases hlead : n.id ≠ n.leader ∨ ¬ n.active = true
  · rw [if_pos hlead]
  · rw [if_neg hlead]
    obtain ⟨hl, ha⟩ := not_or.mp hlead
    rw [if_pos fun hbusy => h ⟨not_not.mp hl, not_not.mp ha, hbusy⟩]

theorem handle_votes (hvote : ∀ v, inp ≠ .deliver (.vote v)) (hbuild : n.building inp = []) :
    (n.handle E C inp).votes = n.votes ∧ (n.handle E C inp).qcFormed = n.qcFormed := by
  refine (passive_votes n.votes n.qcFormed).handle inp ⟨rfl, rfl⟩
    (fun v hv => absurd hv (hvote v)) ?_ fun view epoch _ hlt => ?_
  · rintro cmd rfl
    rw [propose_of_not_building]
    · exact ⟨rfl, rfl⟩
    · intro hready
      unfold building at hbuild
      dsimp only at hbuild
      rw [if_pos hready] at hbuild
      cases hbuild
  · rw [enterViewLockedEpoch_of_lt hlt]
    exact ⟨rfl, rfl⟩

theorem handle_lookup (hp : Planted n) (hout : n.out = []) (hbuild : n.building inp = [])
    {id : BlockID} {c : Block} (hc : n.blocks.lookup id = some c) :
    (n.handle E C inp).blocks.lookup id = some c := by
  have hmoves := (handle_moves (E := E) (C := C) hp.parked inp).1
  obtain ⟨x, hx⟩ := GoMap.mem_iff_lookup.mp
    (hmoves.onward.blocks id (GoMap.mem_iff_lookup.mpr ⟨c, hc⟩))
  have hid : x.id = id := ((hp.handle (E := E) (C := C) hout inp).1.tree id x hx).1
  rw [hx]
  rcases hmoves.blocks_from hx with hold | ⟨-, hnew⟩ | hown
  · exact hold.symm.trans hc
  · rw [hid] at hnew
    exact absurd (GoMap.mem_iff_lookup.mpr ⟨c, hc⟩) hnew
  · change x ∈ n.building inp at hown
    rw [hbuild] at hown
    cases hown

def calls (E : Env) (cs : List Call) (n : Replica) : Replica := cs.foldl (fun n c => n.call E c) n

/-- The votes of all the calls. -/
def ballotsOf (E : Env) : List Call → Replica → List Vote
  | [], _ => []
  | c :: cs, n => (n.before c).ballots E c.input ++ ballotsOf E cs (n.call E c)

/-- The certificates formed in all the calls. -/
def electedOf (E : Env) : List Call → Replica → List QC
  | [], _ => []
  | c :: cs, n => (n.before c).elected E c.input ++ electedOf E cs (n.call E c)

/-- Before each of the calls the replica leads, is in the epoch, and knows this set for it. -/
def presides (E : Env) (set : ValidatorSet) (epoch : Nat) : List Call → Replica → Bool
  | [], _ => true
  | c :: cs, n => n.id = n.leader && n.epoch = epoch && n.sets.lookup epoch = some set &&
      presides E set epoch cs (n.call E c)

end Replica

section Polls

variable {E : Env} {C : Ctx} {set : ValidatorSet} {b : Block} {ballots : List Vote}
  {certs : List QC} {n : Replica}

theorem Poll.proposed (h : Poll E set b ballots certs n)
    (hb : b.id = blockID b.view b.height b.parent b.cmd) (hepoch : n.epoch = b.epoch)
    (cmd : Bytes) : Poll E set b ballots certs (n.proposed E cmd) := by
  obtain ⟨w, o, heq⟩ := proposed_eq (E := E) cmd n
  refine h.congr (by rw [heq]) (by rw [heq]) ?_
  rw [heq]
  rw [GoMap.lookup_insert_of]
  split
  next hid =>
    refine ⟨_, rfl, ?_, hepoch⟩
    -- the id is a digest of the height
    rw [hb] at hid
    exact (congrArg BlockID.height hid).symm
  next => exact h.block

/-- **Every call keeps the poll**, with its votes among the ballots. -/
theorem Poll.handle (h : Poll E set b ballots certs n) (hp : Planted n) (hout : n.out = [])
    (hb : b.id = blockID b.view b.height b.parent b.cmd) (hlead : n.id = n.leader)
    (hepoch : n.epoch = b.epoch) (hset : n.sets.lookup b.epoch = some set) (inp : Input) :
    Poll E set b (ballots ++ n.ballots E inp) (certs ++ n.elected E inp) (n.handle E C inp) := by
  -- what neither votes nor builds
  have hquiet : n.ballots E inp = [] → n.elected E inp = [] →
      (∀ v, inp ≠ .deliver (.vote v)) → n.building inp = [] →
      Poll E set b (ballots ++ n.ballots E inp) (certs ++ n.elected E inp) (n.handle E C inp) := by
    intro hballots helected hvote hbuild
    obtain ⟨hvotes, hformed⟩ := Replica.handle_votes (E := E) (C := C) hvote hbuild
    obtain ⟨c, hc, hat⟩ := h.block
    rw [hballots, helected, List.append_nil, List.append_nil]
    exact h.congr hvotes hformed ⟨c, Replica.handle_lookup hp hout hbuild hc, hat⟩
  cases inp with
  | propose cmd =>
    by_cases hready : n.id = n.leader ∧ n.active = true ∧ n.qcHigh.nodeID = n.head
    · have hsets : (n.proposed E cmd).sets.lookup b.epoch = some set := by
        obtain ⟨w, o, heq⟩ := proposed_eq (E := E) cmd n
        rw [heq]
        exact hset
      have hvoted := (h.proposed hb hepoch cmd).vote hsets
        ((n.proposed E cmd).voteForBlockLocked_counted (E := E) (n.ownVote E cmd))
      have hballots : n.ballots E (.propose cmd) = [n.ownVote E cmd] := if_pos hready
      have helected : n.elected E (.propose cmd) =
          ((n.proposed E cmd).voteFolds E (n.ownVote E cmd)).map (·.2) := if_pos hready
      obtain ⟨o, ho⟩ := Replica.propose_of_building (E := E) (C := C) cmd hready
      change Poll E set b _ _ (n.propose E C cmd).1
      rw [hballots, helected, ho]
      exact hvoted.congr rfl rfl hvoted.block
    · exact hquiet (if_neg hready) (if_neg hready) (fun v => by simp) (if_neg hready)
  | deliver m =>
    cases m with
    | vote v =>
      have hvoted := h.vote hset (n.voteForBlockLocked_counted (E := E) v)
      have helected : n.elected E (.deliver (.vote v)) = (n.voteFolds E v).map (·.2) := if_pos hlead
      have hhandle : n.handle E C (.deliver (.vote v)) = n.voteForBlockLocked E v := if_pos hlead
      rw [helected, hhandle]
      exact hvoted
    | _ => exact hquiet rfl rfl (fun v => by simp) rfl
  | _ => exact hquiet rfl rfl (fun v => by simp) rfl

theorem Poll.calls (hb : b.id = blockID b.view b.height b.parent b.cmd) :
    ∀ (cs : List Call) {ballots : List Vote} {certs : List QC} {n : Replica},
      Poll E set b ballots certs n → Planted n → n.presides E set b.epoch cs = true →
      Poll E set b (ballots ++ n.ballotsOf E cs) (certs ++ n.electedOf E cs) (n.calls E cs)
  | [], _, _, _, h, _, _ => by
    unfold Replica.ballotsOf Replica.electedOf
    rw [List.append_nil, List.append_nil]
    exact h
  | c :: cs, ballots, certs, n, h, hp, hpres => by
    simp only [Replica.presides, Bool.and_eq_true, decide_eq_true_eq] at hpres
    obtain ⟨⟨⟨hlead, hepoch⟩, hset⟩, hrest⟩ := hpres
    have hbefore : Planted (n.before c) := hp.congr ⟨rfl, rfl, rfl, rfl⟩
    have hone : Poll E set b _ _ (n.call E c) :=
      Poll.handle (n := n.before c) (h.congr rfl rfl h.block) hbefore rfl hb hlead hepoch hset
        c.input
    have hall := Poll.calls hb cs hone (hbefore.handle rfl c.input).1 hrest
    rw [List.append_assoc, List.append_assoc] at hall
    exact hall

end Polls

/-! ## 3. What every host keeps -/

/-- Votes are recorded, and certificates formed, for blocks of the tree only. -/
structure Tallied (n : Replica) : Prop where
  votes : ∀ id ∈ n.votes, id ∈ n.blocks
  formed : ∀ id ∈ n.qcFormed, id ∈ n.blocks

namespace Tallied

variable {E : Env} {C : Ctx} {n n' : Replica} {v : Vote}

theorem congr (h : Tallied n) (hvotes : n'.votes = n.votes) (hformed : n'.qcFormed = n.qcFormed)
    (hblocks : ∀ id ∈ n.blocks, id ∈ n'.blocks) : Tallied n' :=
  ⟨fun id hid => hblocks id (h.votes id (hvotes ▸ hid)),
    fun id hid => hblocks id (h.formed id (hformed ▸ hid))⟩

theorem recordVote (h : Tallied n) (hv : v.nodeID ∈ n.blocks) : Tallied (n.recordVote v) := by
  refine ⟨fun id hid => ?_, h.formed⟩
  rcases (AList.mem_insert _).mp hid with rfl | hid
  · exact hv
  · exact h.votes id hid

theorem counted {qcs : List QC} (h : Tallied n) (hv : Replica.Counted E v n n' qcs) :
    Tallied n' := by
  cases hv with
  | dropped => exact h
  | counted hblk => exact h.recordVote (GoMap.mem_iff_lookup.mpr ⟨_, hblk⟩)
  | @completed blk _ hblk =>
    have hmem : v.nodeID ∈ n.blocks := GoMap.mem_iff_lookup.mpr ⟨_, hblk⟩
    have hrec := h.recordVote hmem
    have hfull : Tallied { n.recordVote v with qcFormed := v.nodeID :: n.qcFormed } := by
      refine ⟨hrec.votes, fun id hid => ?_⟩
      rcases List.mem_cons.mp hid with rfl | hid
      · exact hmem
      · exact h.formed id hid
    obtain ⟨hvotes, hformed, hblocks⟩ := onNewQCLocked_votes (E := E)
      ((n.recordVote v).certificate blk v.nodeID)
      { n.recordVote v with qcFormed := v.nodeID :: n.qcFormed }
    exact hfull.congr hvotes hformed fun id hid => by rw [hblocks]; exact hid

theorem handle (h : Tallied n) (hp : Planted n) (inp : Input) : Tallied (n.handle E C inp) := by
  have hquiet : (∀ v, inp ≠ .deliver (.vote v)) → n.building inp = [] →
      Tallied (n.handle E C inp) := by
    intro hvote hbuild
    obtain ⟨hvotes, hformed⟩ := Replica.handle_votes (E := E) (C := C) hvote hbuild
    exact h.congr hvotes hformed
      (handle_moves (E := E) (C := C) hp.parked inp).1.onward.blocks
  cases inp with
  | propose cmd =>
    by_cases hready : n.id = n.leader ∧ n.active = true ∧ n.qcHigh.nodeID = n.head
    · have hbuilt : Tallied (n.proposed E cmd) := by
        obtain ⟨w, o, heq⟩ := proposed_eq (E := E) cmd n
        rw [heq]
        exact h.congr rfl rfl fun id hid => (AList.mem_insert _).mpr (Or.inr hid)
      have hvoted := hbuilt.counted
        ((n.proposed E cmd).voteForBlockLocked_counted (E := E) (n.ownVote E cmd))
      obtain ⟨o, ho⟩ := Replica.propose_of_building (E := E) (C := C) cmd hready
      change Tallied (n.propose E C cmd).1
      rw [ho]
      exact hvoted.congr rfl rfl fun _ hid => hid
    · exact hquiet (fun v => by simp) (if_neg hready)
  | deliver m =>
    cases m with
    | vote v =>
      by_cases hlead : n.id = n.leader
      · have hhandle : n.handle E C (.deliver (.vote v)) = n.voteForBlockLocked E v := if_pos hlead
        rw [hhandle]
        exact h.counted (n.voteForBlockLocked_counted (E := E) v)
      · have hhandle : n.handle E C (.deliver (.vote v)) = n := if_neg hlead
        rw [hhandle]
        exact h
    | _ => exact hquiet (fun v => by simp) rfl
  | _ => exact hquiet (fun v => by simp) rfl

theorem dropBlock (h : Tallied n) (id : BlockID) : Tallied (n.dropBlock id) := by
  have hdrop : Tallied { n with
      blocks := n.blocks.erase id, votes := n.votes.erase id
      qcFormed := n.qcFormed.filter (· ≠ id) } := by
    refine ⟨fun x hx => ?_, fun x hx => ?_⟩
    · obtain ⟨hne, hold⟩ := AList.mem_erase.mp hx
      exact AList.mem_erase.mpr ⟨hne, h.votes x hold⟩
    · obtain ⟨hold, hne⟩ := List.mem_filter.mp hx
      exact AList.mem_erase.mpr ⟨by simpa using hne, h.formed x hold⟩
  unfold Replica.dropBlock
  dsimp only
  split
  · exact hdrop.congr rfl rfl fun _ hid => hid
  · exact hdrop.congr rfl rfl fun _ hid => hid

theorem gc (h : Tallied n) : Tallied n.gcLocked.1 := by
  have hdrop : ∀ (ids : List BlockID) (n : Replica), Tallied n →
      Tallied (ids.foldl Replica.dropBlock n) := by
    intro ids
    induction ids with
    | nil => exact fun _ h => h
    | cons id ids ih => exact fun n h => ih _ (h.dropBlock id)
  unfold Replica.gcLocked
  split
  · exact h
  split
  · exact h
  split
  · exact h
  · exact (hdrop _ n h).congr rfl rfl fun _ hid => hid

theorem of_none (hvotes : n.votes = ∅) (hformed : n.qcFormed = []) : Tallied n := by
  refine ⟨fun id hid => ?_, fun id hid => ?_⟩
  · rw [hvotes] at hid
    exact absurd hid (AList.notMem_empty id)
  · rw [hformed] at hid
    cases hid

theorem act {K : Setup} {s : Host} (h : Tallied s.node) (hs : s.Stocked) (e : Event) :
    Tallied (s.act E K e).node := by
  cases e with
  | call inp ctx writes =>
    have hr : Planted (s.ready writes) := hs.node.congr ⟨rfl, rfl, rfl, rfl⟩
    exact Tallied.handle (n := s.ready writes) (h.congr rfl rfl fun _ hid => hid) hr inp
  | gc => exact h.gc
  | writeCheckpoint => exact h
  | rotate => exact h
  | restart =>
    unfold Host.act
    dsimp only
    split
    · exact h
    next n hn =>
      obtain ⟨n₀, hn₀, heq⟩ := K.reopen_restoring hn
      have hnone := Replica.Untouched.fresh hn₀
      rw [heq]
      exact of_none hnone.votes hnone.qcFormed

end Tallied

theorem Host.tallied {E : Env} {K : Setup} {n₀ : Replica} {s : Host} (h₀ : K.fresh E = .ok n₀)
    (hrun : (Host.machine E K).Steps (Host.start K n₀) s) : Tallied s.node :=
  (hrun.invariant (P := fun s => s.Stocked ∧ Tallied s.node)
    (fun _ e h _ => ⟨h.1.act e, h.2.act h.1 e⟩)
    ⟨Host.Stocked.start h₀, Tallied.of_none (Replica.Untouched.fresh h₀).votes
      (Replica.Untouched.fresh h₀).qcFormed⟩).2

/-! ## 4. Aggregation is exact -/

section Exact

variable {E : Env} {K : Setup} {set : ValidatorSet} {b : Block} {n : Replica}

/-- A certificate by a quorum of a usable set is valid wherever the set is known, unless the block
is there and at odds with it. -/
theorem QC.Of.qcValid {qc : QC} (h : qc.Of E set b) (husable : set.Usable)
    (hgen : b.id ≠ genesisID) {m : Replica} (hset : m.sets.lookup b.epoch = some set)
    (hagree : ∀ x, m.blocks.lookup b.id = some x → x.height = b.height ∧ x.epoch = b.epoch) :
    m.qcValid E qc = true := by
  have hcontra : m.contradicts qc = false := by
    unfold Replica.contradicts
    rw [h.nodeID]
    split
    · rfl
    next x hx =>
      obtain ⟨hheight, hepoch⟩ := hagree x hx
      simp [h.height, h.epoch, hheight, hepoch]
  unfold Replica.qcValid
  rw [if_neg (by rw [h.nodeID]; exact hgen), h.epoch, hset]
  dsimp only
  rw [if_neg (by have := h.quorum; omega), if_neg (by simp [hcontra]), List.all_eq_true]
  rintro ⟨voter, sig⟩ hentry
  have hsig := h.sound voter sig (AList.mem_lookup_iff.mpr hentry)
  simp only [Endorses, Vote.valid, decide_true, Bool.and_true, Bool.and_eq_true] at hsig
  obtain ⟨hhas, hverify⟩ := hsig
  rw [hhas, Bool.true_and]
  unfold verifyInSet
  cases hkey : set.publicKeys.lookup voter with
  | none =>
    rw [hkey] at hverify
    cases hverify
  | some pub =>
    rw [hkey] at hverify
    have hne := husable.keys voter pub hkey
    rw [h.height, h.nodeID]
    simp only [hne, ne_eq, not_false_eq_true, decide_true, Bool.true_and]
    exact hverify

theorem Poll.first (ht : Tallied n) (husable : set.Usable) {cmd : Bytes}
    (hnew : (n.nextBlock cmd).id ∉ n.blocks) :
    Poll E set (n.nextBlock cmd) [] [] (n.proposed E cmd) := by
  obtain ⟨w, o, heq⟩ := proposed_eq (E := E) cmd n
  have hvotes : n.votesOn (n.nextBlock cmd).id = ∅ := by
    unfold Replica.votesOn
    rw [AList.lookup_eq_none.mpr fun hmem => hnew (ht.votes _ hmem)]
    rfl
  have hon : (n.proposed E cmd).votesOn (n.nextBlock cmd).id = ∅ := by
    rw [heq]
    exact hvotes
  have hformed : (n.nextBlock cmd).id ∉ (n.proposed E cmd).qcFormed := by
    rw [heq]
    exact fun hmem => hnew (ht.formed _ hmem)
  refine ⟨⟨n.nextBlock cmd, ?_, rfl, rfl⟩, fun voter => ?_, fun voter sig hsig => ?_, ?_, ?_, ?_, ?_⟩
  · rw [heq]
    exact AList.lookup_insert _
  · rw [hon]
    exact iff_of_false (AList.notMem_empty voter) (by simp [mem_supporters])
  · rw [hon] at hsig
    exact absurd hsig (by simp [AList.lookup_empty])
  · rw [hon]
    exact iff_of_false hformed (Nat.not_le.mpr husable.quorum)
  · exact iff_of_false (by simp [certsOf]) hformed
  · simp [certsOf]
  · simp [certsOf]

theorem Poll.opening {c : Call} (ht : Tallied n) (husable : set.Usable)
    (hb : b ∈ (n.before c).building c.input) (hnew : b.id ∉ n.blocks)
    (hset : n.sets.lookup b.epoch = some set) :
    Poll E set b ((n.before c).ballots E c.input) ((n.before c).elected E c.input)
      (n.call E c) := by
  obtain ⟨cmd, hinp, rfl, hready⟩ := Replica.mem_building hb
  have hfirst : Poll E set ((n.before c).nextBlock cmd) [] [] ((n.before c).proposed E cmd) :=
    Poll.first (n := n.before c) (ht.congr rfl rfl fun _ hid => hid) husable hnew
  have hsets : ((n.before c).proposed E cmd).sets.lookup ((n.before c).nextBlock cmd).epoch =
      some set := by
    obtain ⟨w, o, heq⟩ := proposed_eq (E := E) cmd (n.before c)
    rw [heq]
    exact hset
  have hvoted := hfirst.vote hsets
    (((n.before c).proposed E cmd).voteForBlockLocked_counted (E := E) ((n.before c).ownVote E cmd))
  have hballots : (n.before c).ballots E (.propose cmd) = [(n.before c).ownVote E cmd] :=
    if_pos hready
  have helected : (n.before c).elected E (.propose cmd) =
      (((n.before c).proposed E cmd).voteFolds E ((n.before c).ownVote E cmd)).map (·.2) :=
    if_pos hready
  obtain ⟨o, ho⟩ := Replica.propose_of_building (E := E) (C := c.ctx) cmd hready
  unfold Replica.call
  rw [hinp, hballots, helected]
  change Poll E set _ _ _ ((n.before c).propose E c.ctx cmd).1
  rw [ho]
  exact hvoted.congr rfl rfl hvoted.block

/-- **Votes become a certificate exactly when they are a quorum**: of a block that is new when it
is proposed, in every sequence of calls in which the replica leads, in the epoch of the block and
with the set it has then.  The certificate is formed once, and is good for every replica with that
set. -/
theorem aggregation_exact {n₀ : Replica} {s : Host}
    (hkey : E.publicKey K.config.privateKey ≠ []) (h₀ : K.fresh E = .ok n₀)
    (hrun : (Host.machine E K).Steps (Host.start K n₀) s) {c : Call} {cs : List Call}
    (hb : b ∈ (s.node.before c).building c.input) (hnew : b.id ∉ s.node.blocks)
    (hpres : s.node.presides E set b.epoch (c :: cs) = true) :
    let formed := certsOf b.id (s.node.electedOf E (c :: cs))
    (formed ≠ [] ↔ set.quorum ≤ (supporters E set b (s.node.ballotsOf E (c :: cs))).card) ∧
      (b.id ∈ (s.node.calls E (c :: cs)).qcFormed ↔ formed ≠ []) ∧ formed.length ≤ 1 ∧
      ∀ qc ∈ formed, ∀ m : Replica, m.sets.lookup b.epoch = some set →
        (∀ x, m.blocks.lookup b.id = some x → x.height = b.height ∧ x.epoch = b.epoch) →
        m.qcValid E qc = true := by
  have hpres' := hpres
  simp only [Replica.presides, Bool.and_eq_true, decide_eq_true_eq] at hpres'
  obtain ⟨⟨-, hset⟩, hrest⟩ := hpres'
  have husable := Host.usable hkey h₀ hrun hset
  have hsound : b.id = blockID b.view b.height b.parent b.cmd := by
    obtain ⟨cmd, -, rfl, -⟩ := Replica.mem_building hb
    rfl
  have hopen : Poll E set b _ _ (s.node.call E c) :=
    Poll.opening (Host.tallied h₀ hrun) husable hb hnew hset
  have hplanted : Planted (s.node.before c) :=
    (Host.planted h₀ hrun).node.congr ⟨rfl, rfl, rfl, rfl⟩
  have hpoll := hopen.calls hsound cs (hplanted.handle rfl c.input).1 hrest
  refine ⟨?_, hpoll.certified.symm, hpoll.once, fun qc hqc m hm hagree => ?_⟩
  · exact hpoll.certified.trans (hpoll.formed.trans (by rw [hpoll.len_votes]; rfl))
  · refine (hpoll.genuine qc hqc).qcValid husable ?_ hm hagree
    rw [hsound]
    exact BlockID.noConfusion

end Exact

/-! ### A poll of four

`L0` proposes; a vote of `L1` arrives twice, then one of a stranger, one of `L2` at a wrong height and
one with a bad signature, and at last a good one. -/

namespace Canvass

/-- A call at a moment at which nothing outside changes; writes succeed. -/
def still (inp : Input) : Call := ⟨inp, Move.still, []⟩

def vote (voter : String) (sig : Bytes) (height : Nat) (id : BlockID) : Call :=
  still (.deliver (.vote { height := height, nodeID := id, voter := voter, sig := sig }))

/-- A good vote of a member of the cluster. -/
def yes (voter : String) (id : BlockID) : Call := vote voter ((four false).priv voter) id.height id

def start : Host := Script.boot plainEnv (Script.setup "L0" 1)

/-- The four members, with their keys. -/
def members : ValidatorSet :=
  (start.node.sets.lookup 0).getD (newValidatorSet 0 [] ∅)

/-- The block `L0` proposes. -/
def block : Block := start.node.nextBlock [1]

def votes : List Call :=
  [yes "L1" block.id, yes "L1" block.id, vote "L9" [9] 1 block.id, vote "L2" [3] 2 block.id,
    vote "L2" [0] 1 block.id, yes "L2" block.id]

end Canvass

theorem aggregation_exact_four :
    ∃ qc, certsOf Canvass.block.id (Canvass.start.node.electedOf plainEnv
        (Canvass.still (.propose [1]) :: Canvass.votes)) = [qc] ∧
      (Script.opened plainEnv (Script.setup "L3" 1)).qcValid plainEnv qc = true := by
  have h := aggregation_exact (E := plainEnv) (K := Script.setup "L0" 1) (by decide +kernel)
    (show _ = Except.ok (Script.opened plainEnv (Script.setup "L0" 1)) from rfl)
    (Machine.Steps.refl _) (b := Canvass.block) (c := Canvass.still (.propose [1]))
    (by decide +kernel) (by decide +kernel)
    (show Canvass.start.node.presides plainEnv Canvass.members _ (_ :: Canvass.votes) = true by
      decide +kernel)
  obtain ⟨hiff, -, hlen, hvalid⟩ := h
  have hne := hiff.mpr (by decide +kernel)
  obtain ⟨qc, hqc⟩ := List.length_eq_one_iff.mp
    (le_antisymm hlen (List.length_pos_of_ne_nil hne))
  refine ⟨qc, hqc, hvalid qc (by rw [hqc]; exact List.mem_singleton.mpr rfl) _
    (by decide +kernel) fun x hx => ?_⟩
  exact absurd hx (by
    rw [show (Script.opened plainEnv (Script.setup "L3" 1)).blocks.lookup Canvass.block.id = none
      by decide +kernel]
    simp)

/-! ### A set replaced in mid-poll

`L1` follows a chain whose first block adds three members and whose second block removes `L2`.  Both
blocks claim epoch 0 (see `Epochs`), so both commits write the set of epoch 1: first seven members
with a quorum of five, then three with a quorum of one.  `L1` leads view 1 in epoch 1 and proposes a
second child of block 3.  The votes for the first child, block 4, commit the second transition. -/

namespace Replaced

/-- The command `[9]` adds `L4`, `L5` and `L6`, the command `[8]` removes `L2`. -/
def env : Env :=
  Script.changing
    { add := ["L4", "L5", "L6"].map fun id => { id := id, pub := List.replicate 32 4 }
      remove := [] }
    (Script.leaves "L2")

/-- The chain that `L0` proposes in view 0. -/
def chain (h : Nat) : Block :=
  Script.blockAt (fun h => if h = 1 then [9] else if h = 2 then [8] else [1])
    (fun h => if h < 4 then 0 else 1) ["L0", "L1", "L2"] h

def sig (id : String) : Bytes :=
  if id = "L4" ∨ id = "L5" then List.replicate 32 4 else (four false).priv id

/-- Four blocks, then five view changes that report the certificate of the third one. -/
def script : List (Host → Event) :=
  (List.range 4).map (fun i => Script.propose "L0" (chain (i + 1))) ++
    ["L0", "L2", "L3", "L4", "L5"].map fun id => Script.hear
      (.viewChange { view := 1, epoch := 1, highQC := (chain 4).justify, sender := id, sig := sig id })

/-- `L1` takes over. -/
def leader : Host :=
  (Host.machine env (Script.setup "L1" 1)).play (Script.boot env (Script.setup "L1" 1)) script

def block : Block := leader.node.nextBlock [7]

/-- The votes that arrive: one for the new block, a quorum for block 4, one for the new block. -/
def votes : List (String × BlockID) :=
  ("L2", block.id) :: ["L0", "L2", "L3", "L4", "L5"].map (·, (chain 4).id) ++ [("L0", block.id)]

def calls : List Call :=
  Canvass.still (.propose [7]) ::
    votes.map fun v => Canvass.vote v.1 (sig v.1) v.2.height v.2

/-- `L1` after `k` of the calls. -/
def after (k : Nat) : Replica := leader.node.calls env (calls.take k)

/-- The certificate of the block that is formed. -/
def qc : QC := ((certsOf block.id (leader.node.electedOf env calls)).head?).getD default

end Replaced

/-- **A certificate without a quorum**: `L1` leads view 1 and is in epoch 1 all the time.  Three
members of the seven have voted for its block when a certificate of it is formed; `L2`, which is one
of them, is not in the set that replaced the first.  Nobody accepts the certificate, `L1` included,
and there is no second one. -/
theorem aggregation_fails :
    (Host.machine Replaced.env (Script.setup "L1" 1)).Steps
        (Script.boot Replaced.env (Script.setup "L1" 1)) Replaced.leader ∧
      Replaced.block ∈ Replaced.leader.node.building (.propose [7]) ∧
      Replaced.block.id ∉ Replaced.leader.node.blocks ∧
      (∀ k ≤ Replaced.calls.length, (Replaced.after k).leader = "L1" ∧
        (Replaced.after k).view = 1 ∧ (Replaced.after k).epoch = Replaced.block.epoch) ∧
      (Replaced.leader.node.sets.lookup 1).map (fun set => (set.validators, set.quorum)) =
        some (["L0", "L1", "L2", "L3", "L4", "L5", "L6"], 5) ∧
      ((Replaced.after 8).sets.lookup 1).map (fun set => (set.validators, set.quorum)) =
        some (["L0", "L1", "L3"], 1) ∧
      certsOf Replaced.block.id (Replaced.leader.node.electedOf Replaced.env Replaced.calls) =
        [Replaced.qc] ∧
      Replaced.qc.votes.keys = ["L0", "L2", "L1"] ∧
      Replaced.leader.node.qcValid Replaced.env Replaced.qc = false ∧
      (Replaced.after 8).qcValid Replaced.env Replaced.qc = false :=
  ⟨Machine.steps_of_plays _ _ (by decide +kernel), by decide +kernel, by decide +kernel,
    by decide +kernel, by decide +kernel, by decide +kernel, by decide +kernel,
    by decide +kernel, by decide +kernel, by decide +kernel⟩

end Cachey.HotStuff
