/-
# Where the blocks of a tree come from

A block enters a replica's tree through one of three doors -- a proposal, a fetched block, a batch
-- and each door checks something else.  A proposal is checked for the leader's signature.  A
fetched block and a batch are checked for the certificates of the blocks BELOW; what stands for the
top block itself is that the replica asked for it.

* §1  With a fixed membership there is one epoch, and its set does not change (`Fixed`).
* §2  What a replica holds of its messages (`Attested`), and how a call keeps it (`Vetted`).
* §3  The cluster with the messages each replica has received (`Audit`).  Where every request is
      for a certified block, and a batch ends in one, every block of a tree is the replica's own,
      a leader's, or certified.
* §4  A proposal nobody has checked is enough to make a replica ask: with its own answer, a
      Byzantine member plants any block.
-/
import Cachey.HotStuff.Agreement
import Cachey.HotStuff.Epochs
import Cachey.HotStuff.Requests

namespace Cachey.HotStuff

/-! ## 1. One epoch -/

/-- No membership command, and the epoch of a cluster that never had one. -/
def Block.Plain (E : Env) (b : Block) : Prop := isMembershipBlock E b = false ∧ b.epoch = 0

section OneEpoch

variable {E : Env} {S : Scope} {n n₀ n' : Replica} {b : Block} {Q : Block → Prop}

theorem epochAndSetOfLocked_plain (ht : Grown n.blocks) (hbase : n.gcBase ∈ n.blocks)
    (hq : Standing (Block.Plain E) n) (hb : isMembershipBlock E b = false) :
    n.epochAndSetOfLocked E b = (0, n.sets.lookup 0) := by
  obtain ⟨base, hl⟩ := GoMap.mem_iff_lookup.mp hbase
  have hts : transitions E none none none
      ((n.path b).takeWhile fun cur => cur.id ≠ n.gcBase) = [] := by
    refine transitions_eq_nil _ _ _ _ fun x hx => ?_
    rcases ht.mem_walk _ b x ((List.takeWhile_sublist _).subset hx) with rfl | hx
    · exact hb
    · exact (hq _ x hx).1
  unfold Replica.epochAndSetOfLocked
  rw [hl]
  simp only [hts, (hq _ base hl).2, List.length_nil, List.reverse_nil, List.foldl_nil,
    Nat.add_zero, u64, Nat.zero_mod, ite_self]
  rw [(hq _ base hl).2]

/-- What a replica keeps as long as every block it is offered is plain. -/
structure Fixed (E : Env) (n₀ n : Replica) : Prop where
  growing : Growing n₀ n
  sets : n.sets = n₀.sets
  epoch : n.epoch = 0
  standing : Standing (Block.Plain E) n

theorem Standing.insert (h : Standing Q n) (hb : Q b) (heq : n'.blocks = n.blocks.insert b.id b) :
    Standing Q n' := by
  intro id x hx
  rw [heq, GoMap.lookup_insert_of] at hx
  split at hx
  · obtain rfl := Option.some.inj hx
    exact hb
  · exact h id x hx

theorem Standing.congr (h : Standing Q n) (heq : n'.blocks = n.blocks) : Standing Q n' := by
  unfold Standing
  rw [heq]
  exact h

theorem Fixed.move (h : Fixed E n₀ n) (hbase : n₀.gcBase ∈ n₀.blocks)
    (hin : ∀ b ∈ S.inserts, isMembershipBlock E b = false)
    (hown : ∀ b ∈ S.owns, isMembershipBlock E b = false) (hm : Move E S n n') :
    Fixed E n₀ n' := by
  have hg := h.growing.move hm
  cases hm with
  | aside ha =>
    exact ⟨hg, ha.sets.trans h.sets, ha.epoch.trans h.epoch, h.standing.congr ha.blocks⟩
  | insert b hmem _ _ hgate _ =>
    -- the gate lets in what claims the derived epoch
    have hep := epochAndSetOfLocked_plain h.growing.tree
      (h.growing.gcBase ▸ h.growing.blocks _ hbase) h.standing (hin b hmem)
    have hb : b.Plain E := by
      unfold Replica.epochGate at hgate
      rw [hep] at hgate
      simp only [Bool.and_eq_true, decide_eq_true_eq] at hgate
      exact ⟨hin b hmem, hgate.1⟩
    obtain ⟨w, o, heq⟩ := record_eq b n
    rw [heq] at hg ⊢
    exact ⟨hg, h.sets, h.epoch, h.standing.insert hb rfl⟩
  | own cmd hmem _ _ =>
    obtain ⟨w, o, heq⟩ := record_eq (n.nextBlock cmd) n
    rw [heq] at hg ⊢
    exact ⟨hg, h.sets, h.epoch, h.standing.insert ⟨hown _ hmem, h.epoch⟩ rfl⟩
  | fold qc _ _ =>
    have hkeep := onNewQCLocked_keeps (E := E) (Q := Block.Plain E)
      (P := fun m => m.sets = n₀.sets ∧ m.epoch = 0)
      (fun _ _ hc hm => ⟨hc.sets.trans hm.1, hc.epoch.trans hm.2⟩) (fun m b hb hm => by
        obtain ⟨a, w, o, heq, _⟩ := execBlock_eq (E := E) m b
        have hsame : activation E (m.sets, m.epoch) b = (m.sets, m.epoch) := by
          unfold activation
          rw [if_pos (by simp [hb.1])]
        rw [heq, hsame]
        exact hm) h.growing.tree h.standing qc ⟨h.sets, h.epoch⟩
    exact ⟨hg, hkeep.1, hkeep.2, h.standing.congr (Folding.onNewQCLocked (E := E) qc n).blocks⟩
  | adopt qc _ _ _ => exact ⟨hg, h.sets, h.epoch, h.standing⟩
  | vote b _ _ _ =>
    rcases castVote_eq (E := E) b n with heq | ⟨_, w, o, heq⟩
    · rw [heq]
      exact h
    · rw [heq] at hg ⊢
      exact ⟨hg, h.sets, h.epoch, h.standing⟩
  | collect vc _ => exact ⟨hg, h.sets, h.epoch, h.standing⟩

theorem Moves.vote_digest (hm : Moves E S n n') (hout : n.out = []) {h : ℕ} {id : BlockID}
    {v : String} (hv : .signed (.vote h id v) ∈ n'.out) :
    ∃ view parent cmd, id = blockID view h parent cmd := by
  refine hm.invariant (P := fun m => ∀ h id v, .signed (.vote h id v) ∈ m.out →
    ∃ view parent cmd, id = blockID view h parent cmd) (fun m m' ih hm h id v hv => ?_)
    (by simp [hout]) h id v hv
  cases hm with
  | aside ha =>
    have hfil : .signed (.vote h id v) ∈ m'.out.filter Effect.isKey :=
      List.mem_filter.mpr ⟨hv, rfl⟩
    rw [ha.journal] at hfil
    exact ih h id v (List.mem_filter.mp hfil).1
  | insert b _ _ _ _ _ =>
    exact ih h id v ((mem_out_persistRecordLocked hv).resolve_right (by simp))
  | own cmd _ _ _ =>
    rcases List.mem_cons.mp hv with hv | hv
    · obtain ⟨rfl, rfl, _⟩ := Signable.vote.inj (Effect.signed.inj hv)
      exact ⟨_, _, _, rfl⟩
    · exact ih h id v ((mem_out_persistRecordLocked hv).resolve_right (by simp))
  | fold qc _ _ => exact ih h id v ((Folding.onNewQCLocked (E := E) qc m).ballots _ rfl hv)
  | adopt qc _ _ _ => exact ih h id v hv
  | collect vc _ => exact ih h id v hv
  | vote b _ hs _ =>
    unfold Replica.castVote at hv
    split at hv
    · exact ih h id v hv
    · dsimp only at hv
      split at hv
      · exact ih h id v ((mem_out_persistRecordLocked hv).resolve_right (by simp))
      · rcases List.mem_cons.mp hv with hv | hv
        · obtain ⟨rfl, rfl, _⟩ := Signable.vote.inj (Effect.signed.inj hv)
          exact ⟨_, _, _, hs.addressed⟩
        · exact ih h id v ((mem_out_persistRecordLocked hv).resolve_right (by simp))

end OneEpoch

/-! ## 2. What stands for a block

A block that is not a leader's enters by way of the books: it was asked for, it waited for its
parent, or the call before has told the transport to ask.  As long as every id in the books is
attested, what comes in on their account is attested too. -/

def Message.certificates : Message → List QC
  | proposal p => p.block.justify.toList ++ p.viewChanges.filterMap (·.highQC)
  | viewChange vc => vc.highQC.toList
  | block bm => bm.block.justify.toList
  | blockBatch bb => bb.blocks.filterMap (·.justify)
  | _ => []

namespace Replica

/-- Among the messages `inbox` the replica has a valid certificate of the block. -/
def holds (E : Env) (inbox : List Message) (id : BlockID) (n : Replica) : Prop :=
  ∃ m ∈ inbox, ∃ qc ∈ m.certificates, qc.nodeID = id ∧ n.qcValid E qc = true

instance (E : Env) (inbox : List Message) (id : BlockID) (n : Replica) :
    Decidable (n.holds E inbox id) :=
  inferInstanceAs (Decidable (∃ _ ∈ _, ∃ _ ∈ _, _))

/-- The signature of the proposal is that of the leader of its block's view. -/
def leaderSigned (E : Env) (n : Replica) (p : Proposal) : Bool :=
  match (n.epochAndSetOfLocked E p.block).2 with
  | none => false
  | some set => leaderOfSet n.leader0 (some set) p.block.view = some p.sender &&
      verifyInSet E set p.sender p.sig p.signable

/-- The block of a proposal that is found to be the leader's. -/
def leading (E : Env) (inp : Input) (n : Replica) : List Block :=
  match inp with
  | .deliver (.proposal p) => if n.leaderSigned E p then [p.block] else []
  | _ => []

/-- The `requestBlock` that follows a parked block. -/
def wanting (E : Env) (C : Ctx) (inp : Input) (n : Replica) : List (String × BlockID) :=
  match inp with
  | .deliver (.block bm) => ((n.handleBlock E C bm).2.2.map fun id => (bm.sender, id)).toList
  | _ => []

end Replica

/-- The message an input hands over. -/
def Input.received : Input → List Message
  | .deliver m => [m]
  | _ => []

section Vetting

variable {E : Env} {C : Ctx} {inbox : List Message} {n : Replica} {inp : Input} {now : ℕ}
  {built led : List Block} {wants : List (String × BlockID)} {vc : ViewChange} {id : BlockID}
  {bb : BlockBatch}

/-- A message in the inbox has a certificate of the block with the signatures of a quorum; genesis
needs none. -/
def Attested (E : Env) (sets : GoMap Nat ValidatorSet) (inbox : List Message) (id : BlockID) :
    Prop :=
  id = genesisID ∨ ∃ m ∈ inbox, ∃ qc ∈ m.certificates, qc.nodeID = id ∧ qc.hasQuorum E sets = true

theorem Attested.mono {sets : GoMap Nat ValidatorSet} {inbox' : List Message}
    (h : Attested E sets inbox id) (hsub : ∀ m ∈ inbox, m ∈ inbox') :
    Attested E sets inbox' id := by
  rcases h with h | ⟨m, hm, hqc⟩
  · exact Or.inl h
  · exact Or.inr ⟨m, hsub m hm, hqc⟩

theorem Attested.of_valid {m : Message} {qc : QC} (hm : m ∈ inbox) (hq : qc ∈ m.certificates)
    (hv : n.qcValid E qc = true) : Attested E n.sets inbox qc.nodeID := by
  by_cases hne : qc.nodeID = genesisID
  · exact Or.inl hne
  · exact Or.inr ⟨m, hm, qc, hq, rfl, ((qcValid_iff hne).mp hv).1⟩

theorem Attested.of_holds (h : n.holds E inbox id) : Attested E n.sets inbox id := by
  obtain ⟨m, hm, qc, hq, rfl, hv⟩ := h
  exact Attested.of_valid hm hq hv

/-- Every block of a sound batch but the last is certified inside the batch. -/
theorem batchSound_certified : ∀ (l : List Block) (prev : Option BlockID) (h e : ℕ),
    Replica.batchSound E n prev h e l = true → ∀ b ∈ l, b ∈ l.getLast? ∨
      ∃ c ∈ l, ∃ qc, c.justify = some qc ∧ qc.nodeID = b.id ∧ n.qcValid E qc = true
  | [], _, _, _, _, _, hb => absurd hb (by simp)
  | [x], _, _, _, _, b, hb => Or.inl (by simpa [eq_comm] using hb)
  | x :: y :: rest, prev, h, e, hsound, b, hb => by
    obtain ⟨_, _, hrest⟩ := batchSound_cons hsound
    rcases List.mem_cons.mp hb with rfl | hb
    · obtain ⟨_, hpar, _⟩ := batchSound_cons hrest
      unfold Replica.batchSound at hrest
      cases hj : y.justify with
      | none => simp [hj] at hrest
      | some qc =>
        simp only [hj, Bool.and_eq_true, decide_eq_true_eq] at hrest
        obtain ⟨⟨_, hqc⟩, _⟩ := hrest
        exact Or.inr ⟨y, by simp, qc, hj, hqc.1.1.1.2.trans (hpar b.id rfl), hqc.1.1.1.1⟩
    · rcases batchSound_certified (y :: rest) _ _ _ hrest b hb with hlast | ⟨c, hc, hqc⟩
      · exact Or.inl (by simpa using hlast)
      · exact Or.inr ⟨c, List.mem_cons_of_mem _ hc, hqc⟩

theorem takesBatch_spec (h : n.takesBatch E now bb = true) :
    ∃ req, n.answers E now bb = some req ∧ ∃ prev height epoch,
      Replica.batchSound E n prev height epoch bb.blocks = true := by
  unfold Replica.takesBatch at h
  simp only [Bool.and_eq_true] at h
  obtain ⟨⟨hreq, hver⟩, hsound⟩ := h
  split at hreq
  · cases hreq
  next req hl =>
    refine ⟨req, Option.filter_eq_some_iff.mpr ⟨hl, by simp [hreq, hver]⟩, ?_⟩
    split at hsound
    · cases hsound
    · split at hsound
      · cases hsound
      next lowest tail hbb anchor hanchor => exact ⟨none, anchor.height, anchor.epoch, hsound⟩

/-- **The condition on a call.**  A proposal makes the replica ask only for a block that it has a
valid certificate of; a batch keeps to the target of the request it answers; and the top block of
an accepted batch is that target, or is in the tree or certified already. -/
def Replica.Cautious (E : Env) (C : Ctx) (inbox : List Message) (inp : Input) (n : Replica) :
    Prop :=
  match inp with
  | .deliver (.proposal p) => n.asks C p = true → n.holds E (.proposal p :: inbox) p.block.parent
  | .deliver (.blockBatch bb) => ∀ req ∈ n.answers E C.now bb,
      (bb.target = req.target ∨ n.holds E (.blockBatch bb :: inbox) bb.target) ∧
      (n.takesBatch E C.now bb = true → ∀ last ∈ bb.blocks.getLast?, last.id = req.target ∨
        last.id ∈ n.blocks ∨ n.holds E (.blockBatch bb :: inbox) last.id)
  | _ => True

instance : Decidable (n.Cautious E C inbox inp) :=
  match inp with
  | .deliver (.proposal p) => inferInstanceAs
      (Decidable (n.asks C p = true → n.holds E (.proposal p :: inbox) p.block.parent))
  | .deliver (.blockBatch bb) => inferInstanceAs (Decidable (∀ req ∈ n.answers E C.now bb,
      (bb.target = req.target ∨ n.holds E (.blockBatch bb :: inbox) bb.target) ∧
      (n.takesBatch E C.now bb = true → ∀ last ∈ bb.blocks.getLast?, last.id = req.target ∨
        last.id ∈ n.blocks ∨ n.holds E (.blockBatch bb :: inbox) last.id)))
  | .deliver (.vote _) | .deliver (.viewChange _) | .deliver (.fetch _) | .deliver (.block _)
  | .deliver (.getBlocks _) | .propose _ | .startViewChange | .requestBlock _ _ =>
    inferInstanceAs (Decidable True)

/-- **A replica that has only ever seen plain blocks.** -/
structure Settled (E : Env) (n : Replica) : Prop where
  planted : Planted n
  epoch : n.epoch = 0
  standing : Standing (Block.Plain E) n
  waiting : ∀ b ∈ n.waiting, isMembershipBlock E b = false

/-- What a call may insert is a block of the input or one that waited. -/
theorem Settled.incoming_plain (h : Settled E n) (hp : inp.plain E = true) :
    (∀ b ∈ n.incoming E C inp, isMembershipBlock E b = false) ∧
      ∀ b ∈ n.building inp, isMembershipBlock E b = false := by
  have hbelow : ∀ roots, ∀ b ∈ n.below roots, isMembershipBlock E b = false := fun roots b hb =>
    h.waiting b (List.mem_filter.mp hb).1
  constructor
  · intro b hb
    unfold Replica.incoming at hb
    split at hb
    next p =>
      have hp : isMembershipBlock E p.block = false := by
        simpa [Input.plain, Message.blocks] using hp
      split at hb
      · rcases List.mem_cons.mp hb with rfl | hb
        · exact hp
        · exact hbelow _ b hb
      · cases hb
    next bm =>
      have hp : isMembershipBlock E bm.block = false := by
        simpa [Input.plain, Message.blocks] using hp
      split at hb
      · rcases List.mem_cons.mp hb with rfl | hb
        · exact hp
        · exact hbelow _ b hb
      · cases hb
    next bb =>
      have hp : ∀ b ∈ bb.blocks, isMembershipBlock E b = false := by
        simpa [Input.plain, Message.blocks] using hp
      split at hb
      · rcases List.mem_append.mp hb with hb | hb
        · exact hp b hb
        · exact hbelow _ b hb
      · cases hb
    next => exact absurd hb (by simp)
  · intro b hb
    obtain ⟨cmd, rfl, rfl, -⟩ := Replica.mem_building hb
    simpa [Input.plain, isMembershipBlock, Replica.nextBlock] using hp

/-- **A call on plain blocks keeps it so**, and the sets as they are. -/
theorem Settled.handle (h : Settled E n) (hout : n.out = []) (hp : inp.plain E = true) :
    (n.handle E C inp).sets = n.sets ∧ Settled E (n.handle E C inp) := by
  obtain ⟨hin, hown⟩ := h.incoming_plain (C := C) hp
  have hfix : Fixed E n (n.handle E C inp) :=
    (handle_moves (E := E) (C := C) h.planted.parked inp).1.invariant
      (fun _ _ hf hm => hf.move h.planted.base hin hown hm)
      ⟨⟨h.planted.tree, fun _ h => h, rfl, by simp [hout]⟩, rfl, h.epoch, h.standing⟩
  refine ⟨hfix.sets, (h.planted.handle hout inp).1, hfix.epoch, hfix.standing, fun b hb => ?_⟩
  rcases (handle_booked (E := E) (C := C) inp n).waiting b hb with hb | hb
  · exact h.waiting b hb
  · -- a parked block was delivered
    unfold Replica.parking at hb
    split at hb
    next bm =>
      split at hb
      next =>
        obtain rfl := List.mem_singleton.mp hb
        simpa [Input.plain, Message.blocks] using hp
      next => exact absurd hb (by simp)
    next => exact absurd hb (by simp)

theorem Settled.gc (h : Settled E n) : n.gcLocked.1.sets = n.sets ∧ Settled E n.gcLocked.1 := by
  rcases gcLocked_cases n with heq | ⟨exec, base, cp, _, _, c⟩
  · rw [heq]
    exact ⟨rfl, h⟩
  · refine ⟨c.sets, h.planted.gc, c.epoch.trans h.epoch, fun id b hb => h.standing id b (c.sub hb),
      fun b hb => ?_⟩
    obtain ⟨id, l, hl, hb⟩ := mem_waiting.mp hb
    exact h.waiting b (mem_waiting.mpr ⟨id, l, c.parked id l hl, hb⟩)

/-- **What is known of a replica's books and tree**: everything it asked for, waits with or has
been told to ask for is attested, and every block of its tree has an origin. -/
structure Vetted (E : Env) (inbox : List Message) (built led : List Block)
    (wants : List (String × BlockID)) (n : Replica) : Prop where
  planted : Planted n
  epoch : n.epoch = 0
  standing : Standing (Block.Plain E) n
  waiting : ∀ b ∈ n.waiting, isMembershipBlock E b = false ∧ Attested E n.sets inbox b.id
  fetches : ∀ id ∈ n.fetches, Attested E n.sets inbox id
  syncReqs : ∀ q ∈ n.syncReqs.values, Attested E n.sets inbox q.target
  wants : ∀ w ∈ wants, Attested E n.sets inbox w.2
  /-- a stored view change was received, or reports no more than the replica has -/
  reports : ∀ view k vc, (n.vcsOf view).lookup k = some vc → ∀ qc, vc.highQC = some qc →
    (∃ m ∈ inbox, qc ∈ m.certificates) ∨ qc.height ≤ n.qcHigh.height
  origin : ∀ id b, n.blocks.lookup id = some b →
    b.id = genesisID ∨ b ∈ built ∨ b ∈ led ∨ Attested E n.sets inbox b.id

theorem Vetted.settled (h : Vetted E inbox built led wants n) : Settled E n :=
  ⟨h.planted, h.epoch, h.standing, fun b hb => (h.waiting b hb).1⟩

/-- The certificate a new leader goes for, if above its own, is one it was sent. -/
theorem highestReported_cases (l : List ViewChange) (n : Replica) :
    n.highestReported E l = n.qcHigh ∨ ∃ vc ∈ l, vc.highQC = some (n.highestReported E l) ∧
      n.qcValid E (n.highestReported E l) = true := by
  unfold Replica.highestReported
  generalize n.qcHigh = high
  induction l generalizing high with
  | nil => exact Or.inl rfl
  | cons vc l ih =>
    rw [List.foldl_cons]
    rcases ih _ with h | ⟨x, hx, hres⟩
    · rw [h]
      cases hq : vc.highQC with
      | none => exact Or.inl rfl
      | some qc =>
        dsimp only
        split
        next hc => exact Or.inr ⟨vc, List.mem_cons_self, hq, hc.1⟩
        next => exact Or.inl rfl
    · exact Or.inr ⟨x, List.mem_cons_of_mem _ hx, hres⟩

variable {m : Replica} {b : Block}

/-- **What a call stores**: the view changes there were, and the one it gathers. -/
theorem handle_stored (hP : ParkedSound n) {view : ℕ} {k : String}
    (hk : ((n.handle E C inp).vcsOf view).lookup k = some vc) :
    (n.vcsOf view).lookup k = some vc ∨
      ∃ m, n.gathering E inp = some (m, vc) ∧ vc.view = view ∧ vc.sender = k := by
  refine (handle_moves (E := E) (C := C) hP inp).1.invariant
    (P := fun x => ∀ view k vc, (x.vcsOf view).lookup k = some vc →
      (n.vcsOf view).lookup k = some vc ∨
        ∃ m, n.gathering E inp = some (m, vc) ∧ vc.view = view ∧ vc.sender = k)
    (fun x x' ih hm view k vc hk => ?_) (fun _ _ _ hk => Or.inl hk) view k vc hk
  rcases hm.vcs_cases with heq | ⟨y, hy, heq⟩
  · refine ih view k vc ?_
    unfold Replica.vcsOf at hk ⊢
    rwa [heq] at hk
  · rw [vcsOf_insert heq] at hk
    split at hk
    next hw =>
      rw [GoMap.lookup_insert_of] at hk
      split at hk
      next hkey =>
        -- the one just stored
        obtain rfl := Option.some.inj hk
        obtain ⟨a, hg, rfl⟩ := Option.mem_map.mp (Option.mem_toList.mp hy)
        exact Or.inr ⟨a.1, hg, hw.symm, hkey.symm⟩
      next => exact ih view k vc (hw ▸ hk)
    next => exact ih view k vc hk

theorem Vetted.basing (h : Vetted E inbox built led wants n)
    (hg : n.gathering E inp = some (m, vc)) :
    ∀ id ∈ (m.addVC vc).basing E C vc.view, Attested E n.sets (inp.received ++ inbox) id := by
  obtain ⟨ha, _, _, hfrom⟩ := gathering_spec (C := C) hg
  intro id hid
  -- the state after storing differs in the view changes only
  have hadd : (m.addVC vc).sets = n.sets ∧ (m.addVC vc).qcHigh = n.qcHigh ∧
      ∀ w k x, ((m.addVC vc).vcsOf w).lookup k = some x → x = vc ∨ (n.vcsOf w).lookup k = some x := by
    have hsame : ∀ w, m.vcsOf w = n.vcsOf w := fun w => by
      unfold Replica.vcsOf
      rw [ha.vcs]
    rcases addVC_eq vc m with heq | heq | heq
    · rw [heq]
      exact ⟨ha.sets, ha.qcHigh, fun w k x hx => Or.inr (hsame w ▸ hx)⟩
    · rw [heq]
      exact ⟨ha.sets, ha.qcHigh, fun w k x hx => Or.inr (hsame w ▸ hx)⟩
    · rw [heq]
      refine ⟨ha.sets, ha.qcHigh, fun w k x hx => ?_⟩
      rw [vcsOf_insert rfl] at hx
      split at hx
      next hw =>
        rw [GoMap.lookup_insert_of] at hx
        split at hx
        · exact Or.inl (Option.some.inj hx).symm
        · exact Or.inr (by rw [hw, ← hsame]; exact hx)
      next => exact Or.inr (hsame w ▸ hx)
  obtain ⟨hsets, hhigh, hvcs⟩ := hadd
  unfold Replica.basing at hid
  dsimp only at hid
  split at hid
  next hlt =>
    obtain rfl := List.mem_singleton.mp hid
    rcases highestReported_cases (E := E) (C.scan.order ((m.addVC vc).vcsOf vc.view).values)
      (m.addVC vc) with heq | ⟨x, hx, hq, hv⟩
    · rw [heq] at hlt
      exact absurd hlt (Nat.lt_irrefl _)
    · rw [hhigh] at hlt
      obtain ⟨k, hk⟩ := GoMap.mem_values_iff.mp (C.scan.mem_order.mp hx)
      rw [← hsets]
      rcases hvcs _ k x hk with rfl | hk
      · rcases hfrom with ⟨rfl, _⟩ | ⟨hown, _⟩
        · exact Attested.of_valid (m := .viewChange x) (by simp [Input.received])
            (by simp [Message.certificates, hq]) hv
        · rw [Option.some.inj (hq.symm.trans hown)] at hlt
          exact absurd hlt (Nat.lt_irrefl _)
      · rcases h.reports _ k x hk _ hq with ⟨m', hm', hqc⟩ | hle
        · exact Attested.of_valid (List.mem_append_right _ hm') hqc hv
        · omega
  next => exact absurd hid (by simp)

theorem Vetted.answered (h : Vetted E inbox built led wants n) {req : SyncRequest}
    (hreq : n.answers E now bb = some req) (new : List Message) :
    Attested E n.sets (new ++ inbox) req.target :=
  (h.syncReqs req (GoMap.mem_values_of_lookup (Option.filter_eq_some_iff.mp hreq).1)).mono
    fun _ hm => List.mem_append_right _ hm

theorem Vetted.asking (h : Vetted E inbox built led wants n) (hc : n.Cautious E C inbox inp)
    (hw : ∀ peer id, inp = .requestBlock peer id → (peer, id) ∈ wants) :
    ∀ id ∈ n.asking E C inp, Attested E n.sets (inp.received ++ inbox) id := by
  intro id hid
  have hview : ∀ id ∈ ((n.gathering E inp).map fun a =>
      (a.1.addVC a.2).basing E C a.2.view).getD [],
      Attested E n.sets (inp.received ++ inbox) id := by
    intro id hid
    cases hg : n.gathering E inp with
    | none => simp [hg] at hid
    | some a => exact h.basing hg id (by simpa [hg] using hid)
  unfold Replica.asking at hid
  split at hid
  · split at hid
    next hasks =>
      obtain rfl := List.mem_singleton.mp hid
      exact Attested.of_holds (hc hasks)
    next => exact absurd hid (by simp)
  · split at hid
    next bb hans =>
      obtain rfl := List.mem_singleton.mp hid
      obtain ⟨req, hreq⟩ := Option.isSome_iff_exists.mp hans
      rcases (hc req hreq).1 with heq | hholds
      · exact heq ▸ h.answered hreq _
      · exact Attested.of_holds hholds
    next => exact absurd hid (by simp)
  · obtain rfl := List.mem_singleton.mp hid
    exact h.wants _ (hw _ _ rfl)
  · exact hview id hid

theorem mem_fetches_of_admitted (h : n.blockAdmitted E now b = true) : b.id ∈ n.fetches := by
  unfold Replica.blockAdmitted at h
  simp only [Bool.and_eq_true] at h
  have hfly := h.1.2
  unfold Replica.fetchInFlightLocked at hfly
  split at hfly
  · cases hfly
  next ts hts => exact GoMap.mem_iff_lookup.mpr ⟨ts, hts⟩

/-- **What a cautious call inserts comes from the leader or is attested.** -/
theorem Vetted.incoming (h : Vetted E inbox built led wants n) (hc : n.Cautious E C inbox inp)
    (hb : b ∈ n.incoming E C inp) (hnew : b.id ∉ n.blocks) :
    b ∈ n.leading E inp ∨ Attested E n.sets (inp.received ++ inbox) b.id := by
  have hbelow : ∀ roots, b ∈ n.below roots →
      Attested E n.sets (inp.received ++ inbox) b.id := fun roots hb =>
    (h.waiting b (List.mem_filter.mp hb).1).2.mono fun m hm => List.mem_append_right _ hm
  unfold Replica.incoming at hb
  split at hb
  next p =>
    split at hb
    next hacc =>
      rcases List.mem_cons.mp hb with rfl | hb
      · left
        have hled : n.leaderSigned E p = true := by
          rw [Replica.accepts, Bool.and_eq_true] at hacc
          obtain ⟨_, _, _, _, ⟨set, hder, hl, hver⟩, _⟩ := considers_iff.mp hacc.1
          simp [Replica.leaderSigned, hder, hl, hver]
        simp [Replica.leading, hled]
      · exact Or.inr (hbelow _ hb)
    next => exact absurd hb (by simp)
  next bm =>
    split at hb
    next htakes =>
      rcases List.mem_cons.mp hb with rfl | hb
      · right
        unfold Replica.takesBlock at htakes
        simp only [Bool.and_eq_true] at htakes
        exact (h.fetches _ (mem_fetches_of_admitted htakes.1.2)).mono fun m hm =>
          List.mem_append_right _ hm
      · exact Or.inr (hbelow _ hb)
    next => exact absurd hb (by simp)
  next bb =>
    split at hb
    next htakes =>
      rcases List.mem_append.mp hb with hb | hb
      · right
        obtain ⟨req, hans, _, _, _, hsound⟩ := takesBatch_spec htakes
        rcases batchSound_certified _ _ _ _ hsound b hb with hlast | ⟨c, hcm, qc, hj, hid, hv⟩
        · rcases (hc req hans).2 htakes b hlast with heq | hin | hholds
          · exact heq ▸ h.answered hans _
          · exact absurd hin hnew
          · exact Attested.of_holds hholds
        · rw [← hid]
          refine Attested.of_valid (m := .blockBatch bb) (by simp [Input.received]) ?_ hv
          exact List.mem_filterMap.mpr ⟨c, hcm, hj⟩
      · exact Or.inr (hbelow _ hb)
    next => exact absurd hb (by simp)
  next => exact absurd hb (by simp)

theorem Vetted.handle_reports (h : Vetted E inbox built led wants n) :
    ∀ view k vc, ((n.handle E C inp).vcsOf view).lookup k = some vc → ∀ qc, vc.highQC = some qc →
      (∃ m ∈ inp.received ++ inbox, qc ∈ m.certificates) ∨
        qc.height ≤ (n.handle E C inp).qcHigh.height := by
  intro view k vc hk qc hq
  have hup := (handle_moves (E := E) (C := C) h.planted.parked inp).1.onward.qcHigh
  rcases handle_stored h.planted.parked hk with hk | ⟨m, hg, -, -⟩
  · rcases h.reports view k vc hk qc hq with ⟨m, hm, hqc⟩ | hle
    · exact Or.inl ⟨m, List.mem_append_right _ hm, hqc⟩
    · exact Or.inr (hle.trans hup)
  · rcases (gathering_spec (C := C) hg).2.2.2 with ⟨rfl, _⟩ | ⟨hown, _⟩
    · exact Or.inl ⟨.viewChange vc, by simp [Input.received], by simp [Message.certificates, hq]⟩
    · rw [Option.some.inj (hq.symm.trans hown)]
      exact Or.inr hup

theorem wanting_attested (n : Replica) :
    ∀ w ∈ n.wanting E C inp, Attested E n.sets (inp.received ++ inbox) w.2 := by
  intro w hw
  unfold Replica.wanting at hw
  split at hw
  next bm =>
    obtain ⟨id, hid, rfl⟩ := Option.mem_map.mp (Option.mem_toList.mp hw)
    unfold Replica.handleBlock at hid
    split at hid
    · cases hid
    dsimp only at hid
    split at hid
    · cases hid
    next hadm =>
    split at hid
    · obtain rfl : bm.block.parent = id := by simpa using hid
      have hadm : n.blockAdmitted E C.now bm.block = true := by simpa using hadm
      unfold Replica.blockAdmitted at hadm
      cases hj : bm.block.justify with
      | none => simp [hj] at hadm
      | some qc =>
        simp only [hj, Bool.and_eq_true, decide_eq_true_eq] at hadm
        obtain ⟨_, ⟨hv, hid⟩, _⟩ := hadm
        rw [← hid]
        exact Attested.of_valid (m := .block bm) (by simp [Input.received])
          (by simp [Message.certificates, hj]) hv
    · cases hid
  next => exact absurd hw (by simp)

/-- **A cautious call keeps the books and the tree vetted**, and the sets as they are. -/
theorem Vetted.handle (h : Vetted E inbox built led wants n) (hout : n.out = [])
    (hp : inp.plain E = true) (hc : n.Cautious E C inbox inp)
    (hw : ∀ peer id, inp = .requestBlock peer id → (peer, id) ∈ wants) :
    (n.handle E C inp).sets = n.sets ∧
      Vetted E (inp.received ++ inbox) (n.building inp ++ built) (n.leading E inp ++ led)
        (n.wanting E C inp ++ wants) (n.handle E C inp) := by
  have hm := (handle_moves (E := E) (C := C) h.planted.parked inp).1
  obtain ⟨hsets, hset⟩ := h.settled.handle (C := C) hout hp
  have hbook := handle_booked (E := E) (C := C) inp n
  have hask := h.asking hc hw
  have hmono : ∀ {id}, Attested E n.sets inbox id →
      Attested E n.sets (inp.received ++ inbox) id := fun ha =>
    ha.mono fun _ hm => List.mem_append_right _ hm
  refine ⟨hsets, hset.planted, hset.epoch, hset.standing,
    fun b hb => ⟨hset.waiting b hb, ?_⟩,
    fun id hid => ?_, fun q hq => ?_, fun w hw => ?_, h.handle_reports, fun id b hb => ?_⟩
  · rw [hsets]
    rcases hbook.waiting b hb with hb | hb
    · exact hmono (h.waiting b hb).2
    · -- a parked block was fetched
      unfold Replica.parking at hb
      split at hb
      next bm =>
        split at hb
        next hadm =>
          obtain rfl := List.mem_singleton.mp hb
          exact hmono (h.fetches _ (mem_fetches_of_admitted hadm))
        next => exact absurd hb (by simp)
      next => exact absurd hb (by simp)
  · rw [hsets]
    exact (hbook.fetches id hid).elim (fun hid => hmono (h.fetches id hid)) (hask id)
  · rw [hsets]
    exact (hbook.syncReqs q hq).elim (fun hq => hmono (h.syncReqs q hq)) (hask q.target)
  · rw [hsets]
    rcases List.mem_append.mp hw with hw | hw
    · exact wanting_attested n w hw
    · exact hmono (h.wants w hw)
  · rw [hsets]
    rcases hm.blocks_from hb with hold | ⟨hmem, hnew⟩ | hmem
    · rcases h.origin id b hold with hg | hb | hl | ha
      · exact Or.inl hg
      · exact Or.inr (Or.inl (List.mem_append_right _ hb))
      · exact Or.inr (Or.inr (Or.inl (List.mem_append_right _ hl)))
      · exact Or.inr (Or.inr (Or.inr (hmono ha)))
    · rcases h.incoming hc hmem hnew with hl | ha
      · exact Or.inr (Or.inr (Or.inl (List.mem_append_left _ hl)))
      · exact Or.inr (Or.inr (Or.inr ha))
    · exact Or.inr (Or.inl (List.mem_append_left _ hmem))

theorem Vetted.gc (h : Vetted E inbox built led wants n) :
    n.gcLocked.1.sets = n.sets ∧ Vetted E inbox built led wants n.gcLocked.1 := by
  rcases gcLocked_cases n with heq | ⟨exec, base, cp, _, _, c⟩
  · rw [heq]
    exact ⟨rfl, h⟩
  · have hset := h.settled.gc.2
    refine ⟨c.sets, hset.planted, hset.epoch, hset.standing, fun b hb => ⟨hset.waiting b hb, ?_⟩,
      fun id hid => ?_, fun q hq => ?_, fun w hw => ?_, fun view k vc hk => ?_, fun id b hb => ?_⟩
    · rw [c.sets]
      obtain ⟨id, l, hl, hb⟩ := mem_waiting.mp hb
      exact (h.waiting b (mem_waiting.mpr ⟨id, l, c.parked id l hl, hb⟩)).2
    · rw [c.sets]
      exact h.fetches id (c.fetches id hid)
    · rw [c.sets]
      exact h.syncReqs q (c.syncReqs ▸ hq)
    · rw [c.sets]
      exact h.wants w hw
    · rw [c.qcHigh]
      refine h.reports view k vc ?_
      unfold Replica.vcsOf at hk ⊢
      rwa [c.vcs] at hk
    · rw [c.sets]
      exact h.origin id b (c.sub hb)

end Vetting

/-! ## 3. The cluster and its messages -/

/-- A cluster with what each replica has received, has built, has found to be a leader's, and has
been told to ask for. -/
structure Audit where
  cluster : ClusterState
  inbox : String → List Message
  built : String → List Block
  led : String → List Block
  wants : String → List (String × BlockID)

/-- What happens: a step of the cluster, or a garbage collection. -/
inductive Turn where
  | step (l : Label)
  | collect (r : String)

namespace Audit

def start (s : ClusterState) : Audit :=
  { cluster := s, inbox := fun _ => [], built := fun _ => [], led := fun _ => [],
    wants := fun _ => [] }

/-- The replica the actor's handler starts from. -/
def ready (s : Audit) (l : Label) : Replica :=
  { s.cluster.replica l.actor with out := [], writes := l.writes }

/-- One more entry in the actor's list. -/
def note {α : Type} (r : String) (new : List α) (f : String → List α) : String → List α :=
  fun x => if x = r then new ++ f x else f x

def act (E : Env) (s : Audit) : Turn → Audit
  | .step l =>
    let n := s.ready l
    { cluster := s.cluster.act E l
      inbox := note l.actor l.input.received s.inbox
      built := note l.actor (n.building l.input) s.built
      led := note l.actor (n.leading E l.input) s.led
      wants := note l.actor (n.wanting E l.ctx l.input) s.wants }
  | .collect r => { s with cluster := { s.cluster with
      replica := fun x => if x = r then (s.cluster.replica r).gcLocked.1 else s.cluster.replica x } }

/-- `requestBlock` is called for the parent of a parked block only. -/
def follows (s : Audit) (r : String) : Input → Prop
  | .requestBlock peer id => (peer, id) ∈ s.wants r
  | _ => True

def Enabled (E : Env) (K : Cluster) (s : Audit) : Turn → Prop
  | .step l => s.cluster.Enabled E K l ∧ s.follows l.actor l.input
  | .collect r => K.Correct r ∧ (s.cluster.replica r).panicked = false

/-- The audited cluster as a machine. -/
abbrev machine (E : Env) (K : Cluster) : Machine Audit Turn where
  enabled := fun s t => s.Enabled E K t
  act := fun s t => s.act E t

def Cautious (E : Env) (s : Audit) : Turn → Prop
  | .step l => (s.ready l).Cautious E l.ctx (s.inbox l.actor) l.input
  | .collect _ => True

instance (s : Audit) (r : String) (inp : Input) : Decidable (s.follows r inp) :=
  match inp with
  | .requestBlock peer id => inferInstanceAs (Decidable ((peer, id) ∈ s.wants r))
  | .propose _ | .deliver _ | .startViewChange => inferInstanceAs (Decidable True)

instance (E : Env) (K : Cluster) (s : Audit) (t : Turn) :
    Decidable ((machine E K).enabled s t) :=
  match t with
  | .step l => inferInstanceAs (Decidable (s.cluster.Enabled E K l ∧ s.follows l.actor l.input))
  | .collect r =>
    inferInstanceAs (Decidable (K.Correct r ∧ (s.cluster.replica r).panicked = false))

instance (E : Env) (s : Audit) (t : Turn) : Decidable (s.Cautious E t) :=
  match t with
  | .step l => inferInstanceAs (Decidable ((s.ready l).Cautious E l.ctx (s.inbox l.actor) l.input))
  | .collect _ => inferInstanceAs (Decidable True)

instance (E : Env) (K : Cluster) (s : Audit) (t : Turn) :
    Decidable (((machine E K).restrict (Cautious E)).enabled s t) :=
  inferInstanceAs (Decidable ((machine E K).enabled s t ∧ s.Cautious E t))

variable {E : Env} {K : Cluster} {qc : QC} {s : Audit} {r : String} {m : Message} {n : Replica}

theorem sigs_of_certificates (hq : qc ∈ m.certificates) : ∀ x ∈ qc.sigs, x ∈ m.sigs := by
  intro x hx
  cases m with
  | proposal p =>
    rcases List.mem_append.mp hq with hq | hq
    · have := mem_block_sigs (Option.mem_toList.mp hq) hx
      simp [Message.sigs, this]
    · obtain ⟨vc, hvc, hq⟩ := List.mem_filterMap.mp hq
      refine List.mem_cons_of_mem _ (List.mem_append_right _ (List.mem_flatMap.mpr ⟨vc, hvc, ?_⟩))
      exact mem_viewChange_sigs hq hx
  | viewChange vc => exact mem_viewChange_sigs (Option.mem_toList.mp hq) hx
  | block bm => exact List.mem_cons_of_mem _ (mem_block_sigs (Option.mem_toList.mp hq) hx)
  | blockBatch bb =>
    obtain ⟨b, hb, hj⟩ := List.mem_filterMap.mp hq
    exact List.mem_cons_of_mem _ (List.mem_flatMap.mpr ⟨b, hb, mem_block_sigs hj hx⟩)
  | vote v => exact absurd hq (by simp [Message.certificates])
  | fetch f => exact absurd hq (by simp [Message.certificates])
  | getBlocks g => exact absurd hq (by simp [Message.certificates])

/-- One of the members whose signatures make a quorum is correct, so it did sign. -/
theorem quorum_signed {sets : GoMap Nat ValidatorSet} {trace : List (String × Effect)}
    (hsets : ∀ e S, sets.lookup e = some S → e = 0 ∧ GoodSet K E S)
    (hu : ∀ x ∈ qc.sigs, ∀ i ∈ K.members, i ∉ K.byzantine → E.verify (K.key E i) x.1 x.2 = true →
      (i, Effect.signed x.1) ∈ trace)
    (hquorum : qc.hasQuorum E sets = true) :
    qc.epoch = 0 ∧ ∃ voter, (voter, Effect.signed (.vote qc.height qc.nodeID voter)) ∈ trace := by
  unfold QC.hasQuorum at hquorum
  split at hquorum
  · cases hquorum
  next S hS =>
    obtain ⟨hep, hgood⟩ := hsets _ S hS
    simp only [Bool.and_eq_true, decide_eq_true_eq, List.all_eq_true] at hquorum
    obtain ⟨hlen, hall⟩ := hquorum
    have hsigned : ∀ voter sig, qc.votes.lookup voter = some sig → voter ∈ K.members ∧
        (voter ∉ K.byzantine →
          (voter, Effect.signed (.vote qc.height qc.nodeID voter)) ∈ trace) := by
      intro voter sig hl
      obtain ⟨hhas, hver⟩ := hall ⟨voter, sig⟩ (AList.mem_lookup_iff.mp hl)
      exact signed_of_verified hgood hu hl hhas hver
    obtain ⟨voter, sig, hs, hcor⟩ := exists_correct_voter
      (fun voter sig hl => (hsigned voter sig hl).1) (hgood.quorum ▸ hlen)
    exact ⟨hep, voter, (hsigned voter sig hs).2 hcor⟩

/-- **What holds in every audited state.** -/
structure Inv (E : Env) (K : Cluster) (s : Audit) : Prop where
  replicas : ∀ r, K.Correct r →
    Vetted E (s.inbox r) (s.built r) (s.led r) (s.wants r) (s.cluster.replica r)
  sets : ∀ r, K.Correct r → ∀ e S, (s.cluster.replica r).sets.lookup e = some S →
    e = 0 ∧ GoodSet K E S
  unforged : ∀ r, ∀ m ∈ s.inbox r, s.cluster.Unforged E K m
  votes : ∀ i h id v, (i, Effect.signed (.vote h id v)) ∈ s.cluster.trace → h = id.height

/-- A quorum has a correct member, and it signed the height of the block. -/
theorem Inv.quorum_height (h : Inv E K s) (hr : K.Correct r) (hm : m ∈ s.inbox r)
    (hq : qc ∈ m.certificates) (hquorum : qc.hasQuorum E (s.cluster.replica r).sets = true) :
    qc.epoch = 0 ∧ qc.height = qc.nodeID.height := by
  obtain ⟨hep, voter, hsigned⟩ := quorum_signed (h.sets r hr)
    (fun x hx => h.unforged r m hm x (sigs_of_certificates hq x hx)) hquorum
  exact ⟨hep, h.votes voter _ _ voter hsigned⟩

theorem Inv.holds (h : Inv E K s) (hr : K.Correct r) {id : BlockID} (hne : id ≠ genesisID)
    (ha : Attested E (s.cluster.replica r).sets (s.inbox r) id) :
    (s.cluster.replica r).holds E (s.inbox r) id := by
  obtain ⟨m, hm, qc, hq, rfl, hquorum⟩ := ha.resolve_left hne
  obtain ⟨hep, hheight⟩ := h.quorum_height hr hm hq hquorum
  refine ⟨m, hm, qc, hq, rfl, (qcValid_iff hne).mpr ⟨hquorum, ?_⟩⟩
  unfold Replica.contradicts
  split
  · rfl
  next b hb =>
    have hb₁ := (h.replicas r hr).planted.tree.height hb
    have hb₂ := ((h.replicas r hr).standing _ b hb).2
    simp [hb₁, hb₂, hep, hheight]

theorem Newborn.boot (hb : K.boot E r = some n) : Newborn n := by
  unfold Cluster.boot at hb
  split at hb
  · cases hb
  next n₀ hn₀ =>
    obtain rfl := Option.some.inj hb
    obtain ⟨pk, s, heq⟩ := foldl_setPeerKey_frame (K.members.map fun m => (m, K.key E m)) n₀
    rw [List.foldl_map] at heq
    rw [heq]
    exact { (newReplica_spec hn₀).1 with }

theorem Vetted.newborn (h : Newborn n) : Vetted E [] [] [] [] n := by
  obtain ⟨g, hg, hblocks⟩ := h.tree
  have honly : ∀ id b, n.blocks.lookup id = some b → b = g := by
    intro id b hb
    rw [hblocks, GoMap.lookup_insert_of] at hb
    split at hb
    · exact (Option.some.inj hb).symm
    · exact absurd hb (by simp [AList.lookup_empty])
  refine ⟨Planted.newborn h, h.epoch, fun id b hb => ?_, fun b hb => ?_, fun id hid => ?_,
    fun q hq => ?_, by simp, fun view k vc hk => ?_, fun id b hb => ?_⟩
  · rw [honly id b hb]
    exact ⟨by simp [isMembershipBlock, isMembershipCmd, hg.cmd_eq], hg.epoch_eq⟩
  · obtain ⟨id, l, hl, _⟩ := mem_waiting.mp hb
    rw [h.parked] at hl
    exact absurd hl (by simp [AList.lookup_empty])
  · rw [h.fetches] at hid
    exact absurd hid (by simp [AList.notMem_empty])
  · rw [h.syncReqs] at hq
    exact absurd hq (by simp [GoMap.values])
  · unfold Replica.vcsOf at hk
    rw [h.vcs] at hk
    exact absurd hk (by simp [AList.lookup_empty])
  · rw [honly id b hb]
    exact Or.inl hg.id_eq

theorem Inv.init {s₀ : ClusterState} (h : ClusterState.Init E K s₀) : Inv E K (start s₀) where
  replicas := fun r hr => Vetted.newborn (Newborn.boot (h.2 r hr))
  sets := fun r hr => (ReplicaInv.boot hr (h.2 r hr)).sets
  unforged := by simp [start]
  votes := by simp [start, h.1]

theorem Inv.act (h : Inv E K s) {t : Turn} (hen : s.Enabled E K t) (hc : s.Cautious E t) :
    Inv E K (s.act E t) := by
  cases t with
  | step l =>
    obtain ⟨⟨hr, _, hplain, hadm⟩, hfollow⟩ := hen
    have hv := h.replicas l.actor hr
    have hready : Vetted E (s.inbox l.actor) (s.built l.actor) (s.led l.actor) (s.wants l.actor)
        (s.ready l) :=
      { hv with planted := hv.planted.congr ⟨rfl, rfl, rfl, rfl⟩ }
    obtain ⟨hsets, hnew⟩ := hready.handle rfl hplain hc (fun peer id heq => by
      rw [heq] at hfollow
      exact hfollow)
    have hgrow : ∀ x ∈ s.cluster.trace, x ∈ (s.cluster.act E l).trace :=
      fun x hx => List.mem_append_right _ hx
    refine ⟨fun r hr => ?_, fun r hr => ?_, fun r m hm => ?_, fun i hgt id v hin => ?_⟩
    · change Vetted E (note l.actor _ _ r) (note l.actor _ _ r) (note l.actor _ _ r)
        (note l.actor _ _ r) (if r = l.actor then _ else _)
      unfold note
      by_cases heq : r = l.actor
      · subst heq
        simp only [if_true]
        exact hnew
      · simpa only [if_neg heq] using h.replicas r hr
    · change ∀ e S, (if r = l.actor then _ else s.cluster.replica r).sets.lookup e = some S → _
      by_cases heq : r = l.actor
      · subst heq
        rw [if_pos rfl]
        intro e S hS
        exact h.sets l.actor hr e S (hsets ▸ hS)
      · rw [if_neg heq]
        exact h.sets r hr
    · have hm : m ∈ note l.actor l.input.received s.inbox r := hm
      unfold note at hm
      have hold : m ∈ s.inbox r → (s.cluster.act E l).Unforged E K m :=
        fun hm x hx i hi hb hver => hgrow _ (h.unforged r m hm x hx i hi hb hver)
      split at hm
      · rcases List.mem_append.mp hm with hm | hm
        · cases hin : l.input with
          | deliver m' =>
            rw [hin] at hm hadm
            obtain rfl := List.mem_singleton.mp hm
            exact fun x hx i hi hb hver => hgrow _ (hadm x hx i hi hb hver)
          | propose cmd => simp [hin, Input.received] at hm
          | startViewChange => simp [hin, Input.received] at hm
          | requestBlock peer id => simp [hin, Input.received] at hm
        · exact hold hm
      · exact hold hm
    · rcases List.mem_append.mp hin with hin | hin
      · obtain ⟨e, he, heq⟩ := List.mem_map.mp hin
        obtain ⟨_, rfl⟩ := Prod.mk.inj heq
        obtain ⟨_, _, _, rfl⟩ :=
          (handle_moves hready.planted.parked l.input).1.vote_digest rfl he
        rfl
      · exact h.votes i hgt id v hin
  | collect r' =>
    refine ⟨fun r hr => ?_, fun r hr => ?_, h.unforged, h.votes⟩
    · change Vetted E _ _ _ _ (if r = r' then _ else _)
      by_cases heq : r = r'
      · subst heq
        rw [if_pos rfl]
        exact (h.replicas r hr).gc.2
      · rw [if_neg heq]
        exact h.replicas r hr
    · change ∀ e S, (if r = r' then _ else s.cluster.replica r).sets.lookup e = some S → _
      by_cases heq : r = r'
      · subst heq
        rw [if_pos rfl, (h.replicas r hr).gc.1]
        exact h.sets r hr
      · rw [if_neg heq]
        exact h.sets r hr

/-- **Every block of a tree has an origin**, in every run of cautious calls: the replica built it,
a proposal brought it whose signature was the leader's, or the replica holds a valid certificate
of it. -/
theorem tree_vouched {s₀ : ClusterState} {s : Audit} (h₀ : ClusterState.Init E K s₀)
    (hrun : ((machine E K).restrict (Cautious E)).Steps (start s₀) s) {r : String}
    (hr : K.Correct r) {id : BlockID} {b : Block}
    (hb : (s.cluster.replica r).blocks.lookup id = some b) (hne : id ≠ genesisID) :
    b ∈ s.built r ∨ b ∈ s.led r ∨ (s.cluster.replica r).holds E (s.inbox r) id := by
  have h : Inv E K s := hrun.invariant
    (fun t e ht (hen : t.Enabled E K e ∧ t.Cautious E e) => ht.act hen.1 hen.2) (Inv.init h₀)
  have hid := ((h.replicas r hr).planted.tree id b hb).1
  rcases (h.replicas r hr).origin id b hb with hg | hbuilt | hled | ha
  · exact absurd (hid.symm.trans hg) hne
  · exact Or.inl hbuilt
  · exact Or.inr (Or.inl hled)
  · exact Or.inr (Or.inr (h.holds hr hne (hid ▸ ha)))

/-! ## 4. Fetching, and planting

`L1` misses the first block of `L0` and learns of it from the second, whose justification certifies
it.  A Byzantine member does the same with blocks of its own making: the proposal of a child, which
is buffered UNCHECKED, makes `L1` ask for the parent. -/

/-- `L1` fetches the block it missed. -/
def missed : List (Audit → Turn) :=
  [Move.propose "L0" [7], Move.relay "L0" "L2", Move.relay "L0" "L3", Move.relay "L2" "L0",
    Move.relay "L3" "L0", Move.propose "L0" [8], Move.relay "L0" "L1", Move.relay "L1" "L0",
    Move.relay "L0" "L1"].map fun m s => .step (m s.cluster)

theorem tree_vouched_missed :
    let s := ((machine plainEnv (four false)).restrict (Cautious plainEnv)).play
      (start ((four false).start plainEnv)) missed
    ∃ b, (s.cluster.replica "L1").blocks.lookup (.digest 0 1 genesisID [7]) = some b ∧
      (b ∈ s.built "L1" ∨ b ∈ s.led "L1" ∨
        (s.cluster.replica "L1").holds plainEnv (s.inbox "L1") (.digest 0 1 genesisID [7])) := by
  intro s
  have hin : BlockID.digest 0 1 genesisID [7] ∈ (s.cluster.replica "L1").blocks := by decide +kernel
  obtain ⟨b, hb⟩ := GoMap.mem_iff_lookup.mp hin
  exact ⟨b, hb, tree_vouched (K := four false) (Cluster.init_start plainEnv (four false))
    (Machine.steps_of_plays missed _ (by decide +kernel)) (by decide) hb (by decide)⟩

namespace Planting

/-- The block the Byzantine member makes up, and a child of it. -/
def planted : Block :=
  { view := 0, height := 1, parent := genesisID, id := .digest 0 1 genesisID [7], cmd := [7],
    justify := some (genesisBlock ["L0", "L1", "L2", "L3"]).2, epoch := 0 }

def child : Block :=
  { view := 0, height := 2, parent := planted.id, id := .digest 0 2 planted.id [], cmd := [],
    justify := none, epoch := 0 }

/-- `L3` sends the child without a signature, and answers the request that follows. -/
def schedule : List (Audit → Turn) :=
  [Move.inject "L1" fun _ => .proposal { block := child, sender := "L3", viewChanges := [], sig := [] },
    Move.inject "L1" fun _ => .block { block := planted, sender := "L3", sig := [4] }].map
      fun m s => .step (m s.cluster)

def last : Audit :=
  (machine plainEnv (four true)).play (start ((four true).start plainEnv)) schedule

end Planting

/-- **A fabricated block**: `L1` has not built it, no leader proposed it, and no message `L1` has
received contains a certificate of it. -/
theorem tree_vouched_fails :
    ClusterState.Init plainEnv (four true) ((four true).start plainEnv) ∧
      (machine plainEnv (four true)).Steps (start ((four true).start plainEnv)) Planting.last ∧
      (four true).Correct "L1" ∧
      (Planting.last.cluster.replica "L1").blocks.lookup Planting.planted.id =
        some Planting.planted ∧
      Planting.planted.id ≠ genesisID ∧
      Planting.last.built "L1" = [] ∧ Planting.last.led "L1" = [] ∧
      ¬ (Planting.last.cluster.replica "L1").holds plainEnv (Planting.last.inbox "L1")
        Planting.planted.id :=
  ⟨Cluster.init_start plainEnv (four true), Machine.steps_of_plays _ _ (by decide +kernel),
    by decide, by decide +kernel, by decide, by decide +kernel, by decide +kernel,
    by decide +kernel⟩

end Audit

end Cachey.HotStuff
