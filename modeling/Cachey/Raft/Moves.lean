/-
# Every critical section is a move of the abstract protocol

For each function of the node: the move of `LeaderLog` that it is, and that the node afterwards
is related to the state after the move (`Moves`).

* hearing of a term is `raise`, campaigning is `raise` and `vote`, granting a vote is `vote`;
* `tryBecomeLeader` is `elect`, a proposal is `extend` (both in `Leading`);
* taking entries or a snapshot is `accept`;
* counting a majority makes a prefix SECURED and moves nothing.

The commit index never gets in the way of an acceptance: what is committed is part of the line of
every later leader, so the log is never cut at or below it.
-/
import Cachey.Raft.Invariant

namespace Cachey.Raft

open LeaderLog (Coherent Elections Acked Secured UpToDate Grows)
open LeaderLog.State (accepted)

variable {σ : Type} {K : Cluster σ} {S S' S₁ : Abstract} {s : ClusterState σ} {n n' n₁ : Node σ}
  {r q c v l : String} {E : Env σ} {N t k : ℕ}

/-! ## 1. Applying and committing

A leader counts only entries of its own term.  That is what makes a majority of match indices a
majority of acknowledgements in the term of the last entry, as `LeaderLog.Committed` asks. -/

/-- The commit index moves up over a secured prefix, and what it passes is applied. -/
theorem NodeInv.commit {c : ℕ} (h : NodeInv K S r n) (hc : n.commitIndex ≤ c)
    (hsec : K.Secures S (S.cur r) ((S.log r).take c))
    (ha : Node.Applies (S.log r) { n with commitIndex := c } n') (hend : n'.lastApplied = c) :
    NodeInv K S r n' := by
  obtain ⟨⟨log, last, applied, snapshot, saves, fsm, rfl⟩, hsound, -, hbase, hjournal, hsaved⟩ := ha
  refine { h with
    sound := hsound, settled := hend, secured := hsec, leader := fun hr => ?_
    applied := fun x hx => ?_, snapshot := fun snap hsnap => ?_ }
  · exact { h.leader hr with
      matched := fun p m hm => ((h.leader hr).matched p m hm).imp_left fun hle => hle.trans hc }
  · obtain ⟨new, heq, hnew⟩ := hjournal
    rw [heq] at hx
    rcases List.mem_append.mp hx with hx | hx
    · obtain ⟨hpos, hle, hget⟩ := hnew x hx
      have hle : x.1 ≤ c := hle.trans (le_of_eq hend)
      exact ⟨hpos, _, _, hsec, by rw [List.getElem?_take_of_lt (by omega)]; exact hget⟩
    · exact h.applied x hx
  · rcases hsaved with heq | ⟨hstored, snap', heq, hof⟩
    · obtain ⟨hstored, hle, ht⟩ := h.snapshot snap (heq ▸ hsnap)
      exact ⟨hstored, hle.trans hbase, ht⟩
    · obtain rfl := Option.some.inj (heq.symm.trans hsnap)
      exact ⟨hstored, hof⟩

theorem Cluster.card_quorumBase (K : Cluster σ) : K.quorumBase.card = K.voters.length :=
  List.toFinset_card_of_nodup K.nodup

theorem Cluster.mem_quorumBase : r ∈ K.quorumBase ↔ r ∈ K.voters := List.mem_toFinset

theorem NodeInv.majority (h : NodeInv K S r n) (hr : r ∈ K.voters) :
    n.majorityLocked = K.voters.length / 2 + 1 := by
  have hlen := List.length_erase_of_mem hr
  have hpos := List.length_pos_of_mem hr
  unfold Node.majorityLocked
  rw [h.peers hr, hlen]
  congr 2
  omega

/-- A prefix that ends in the leader's own term is acknowledged by whoever acknowledged a longer
one. -/
theorem Acked.shorten {m : ℕ} (hc : Coherent Entry.term S)
    (h : Acked Entry.term S q ((S.log r).take m)) (hN : 0 < N) (hle : N ≤ m)
    (hlen : N ≤ (S.log r).length) (hterm : endTerm ((S.log r).take N) = S.cur r) :
    Acked Entry.term S q ((S.log r).take N) := by
  obtain ⟨hne, D, hD, hpre, hlast⟩ := h
  have hNe : (S.log r).take N ≠ [] := List.ne_nil_of_length_pos (by
    rw [List.length_take]
    omega)
  have hsub : (S.log r).take N <+: (S.log r).take m := List.take_prefix_take_left hle
  refine ⟨hNe, D, hD, hsub.trans hpre, ?_⟩
  -- the longer prefix ends in the same term: terms do not decrease, and none is above the current
  rw [← hlast]
  obtain ⟨p, e, hp⟩ := LeaderLog.exists_concat hNe
  obtain ⟨p', e', hp'⟩ := LeaderLog.exists_concat hne
  have hlow := hc.term_le_last (hc.logs r) (List.take_prefix m _) (hsub.subset (by rw [hp]; simp) :
    e ∈ (S.log r).take m)
  have hhigh := hc.bound r e' (List.mem_of_mem_take (by rw [hp']; simp))
  rw [hp, endTerm_concat] at hterm
  rw [hp, hp', LeaderLog.lastTerm_concat, LeaderLog.lastTerm_concat]
  rw [hp', LeaderLog.lastTerm_concat] at hlow
  omega

/-- **Counting a majority** secures the prefix: a leader holds it, and so does every peer whose
match index reaches it. -/
theorem NodeInv.quorate (h : NodeInv K S r n) (hc : Coherent Entry.term S) (hr : r ∈ K.voters)
    (hlead : n.role = .leader) (hlo : n.commitIndex < N) (hhi : N ≤ (S.log r).length)
    (hq : n.Quorate N) : K.Secures S (S.cur r) ((S.log r).take N) := by
  obtain ⟨hterm, hcount⟩ := hq
  obtain ⟨-, hself, -, hmatched, -⟩ := h.leader hlead
  have hlast : endTerm ((S.log r).take N) = S.cur r := by
    rw [← h.sound.holds.termAt ((h.sound.base_le.trans h.sound.applied_le).trans hlo.le) hhi, hterm,
      h.term]
  have hown : Acked Entry.term S r ((S.log r).take N) := by
    refine Acked.shorten (m := (S.log r).length) hc ?_ (by omega) hhi hhi hlast
    rwa [List.take_length]
  obtain ⟨ks, hcard, hks⟩ := n.matchIndex.exists_keys_of_values fun m => decide (m ≥ N)
  have hpeer : ∀ p ∈ ks, p ∈ K.voters.erase r ∧ Acked Entry.term S p ((S.log r).take N) := by
    intro p hp
    obtain ⟨m, hm, hge⟩ := hks p hp
    refine ⟨h.peers hr ▸ h.keys p m hm, ?_⟩
    have hge := of_decide_eq_true hge
    rcases hmatched p m hm with hle | ⟨-, hack⟩
    · omega
    · exact Acked.shorten hc hack (by omega) hge hhi hlast
  have hnot : r ∉ ks := fun hmem => K.nodup.not_mem_erase (hpeer r hmem).1
  refine Or.inr ⟨(S.log r).take N, ⟨hown.1, insert r ks, ?_, ?_, ?_⟩, le_of_eq hlast,
    List.prefix_rfl⟩
  · intro q hq
    rcases Finset.mem_insert.mp hq with rfl | hq
    · exact Cluster.mem_quorumBase.mpr hr
    · exact Cluster.mem_quorumBase.mpr (List.mem_of_mem_erase (hpeer q hq).1)
  · rw [Finset.card_insert_of_notMem hnot, K.card_quorumBase, hcard]
    have hmaj := h.majority hr
    unfold Node.countAt at hcount
    omega
  · intro q hq
    rcases Finset.mem_insert.mp hq with rfl | hq
    · exact hown
    · exact (hpeer q hq).2

theorem Moves.updateCommitIndexLocked (h : Moves K s S S' r n) (hr : r ∈ K.voters)
    (hlead : n.role = .leader) : Moves K s S S' r (n.updateCommitIndexLocked E) := by
  obtain ⟨commit, hcases, ha, hend⟩ := Node.updateCommitIndexLocked_cases (E := E) h.node.sound
  have hup : n.commitIndex ≤ commit := hcases.elim Eq.ge fun hq => hq.1.le
  have hsec : K.Secures S' (S'.cur r) ((S'.log r).take commit) := by
    rcases hcases with rfl | ⟨hlo, hhi, hq⟩
    · exact h.node.secured
    · exact h.node.quorate h.coherent hr hlead hlo hhi hq
  have hnode := h.node.commit hup hsec ha hend
  refine { h with
    node := hnode, base := h.base.trans ha.base, candidate := fun hc => ?_
    commit := h.commit.trans (hup.trans (le_of_eq (hend.symm.trans hnode.settled))) }
  obtain ⟨_, _, _, _, _, _, heq⟩ := ha.only
  rw [heq] at hc
  exact absurd (hlead.symm.trans hc) (by decide)

/-! ## 2. Standing still, and hearing of a term -/

theorem Moves.still (h : Inv K s S) (hn : NodeInv K S r n')
    (hrole : n'.role = .candidate → (s.node r).role = .candidate)
    (hcommit : n'.commitIndex = (s.node r).commitIndex)
    (hbase : n'.log.base = (s.node r).log.base) : Moves K s S S r n' where
  coherent := h.coherent
  elected := h.elected
  grows := Grows.refl S
  node := hn
  others := fun _ _ => ⟨rfl, rfl⟩
  lead := fun _ _ hl => Or.inl hl
  ballots := fun _ hb => Or.inl hb
  candidate := fun hr => Or.inr ⟨hrole hr, rfl, rfl⟩
  base := hbase.ge
  commit := hcommit.ge

theorem Moves.refl (h : Inv K s S) (r : String) : Moves K s S S r (s.node r) :=
  Moves.still h (h.nodes r) id rfl rfl

@[simp] theorem raise_cur_self (S : Abstract) (r : String) (t : ℕ) : (S.raise r t).cur r = t :=
  Function.update_self ..

theorem raise_cur_of_ne (S : Abstract) (t : ℕ) (h : q ≠ r) : (S.raise r t).cur q = S.cur q :=
  Function.update_of_ne h ..

/-- A follower of term `t`; a vote of that very term is kept. -/
def Node.follow (t : ℕ) (vote leaderID : String) (noopIndex : ℕ) (n : Node σ) : Node σ :=
  { n with
    currentTerm := t, votedFor := vote, role := .follower, leaderID := leaderID
    noopIndex := noopIndex }

theorem Inv.not_voted (h : Inv K s S) (ht : S.cur r < t) : ¬ Voted S r t c := by
  rintro ⟨b, hb, rfl, rfl, -⟩
  exact absurd (h.elected.past b hb) (by omega)

theorem Moves.raise (h : Inv K s S) (hv : (s.node r).currentTerm < t ∧ v = "" ∨
      v = (s.node r).votedFor ∧ t = (s.node r).currentTerm) :
    Moves K s S (S.raise r t) r ((s.node r).follow t v l k) := by
  have hn := h.nodes r
  have hterm := hn.term
  have ht : S.cur r ≤ t := by omega
  refine ⟨h.coherent.raise ht, h.elected.raise ht, Grows.raise ht, ?_,
    fun _ hq => ⟨rfl, raise_cur_of_ne S t hq⟩, fun _ _ hl => Or.inl hl, fun _ hb => Or.inl hb,
    (fun hc => by cases hc), le_rfl, le_rfl⟩
  refine { hn with
    term := (raise_cur_self S r t).symm
    sound := { hn.sound with }
    vote := fun c => ?_
    candidate := fun hr => by cases hr
    leader := fun hr => by cases hr
    secured := by
      rw [raise_cur_self]
      exact hn.secured.mono ht fun _ hx => hx }
  rw [raise_cur_self]
  rcases hv with ⟨hlt, rfl⟩ | ⟨rfl, rfl⟩
  · exact ⟨fun hold => absurd hold (h.not_voted (hterm ▸ hlt)), fun hno => absurd hno.1.symm hno.2⟩
  · rw [hterm]
    exact hn.vote c

theorem Moves.stepDownLocked (h : Inv K s S) (ht : t > (s.node r).currentTerm) :
    ∃ S', Moves K s S S' r ((s.node r).stepDownLocked t) :=
  ⟨_, Moves.raise h (Or.inl ⟨ht, rfl⟩)⟩

/-- A leader's message of term `t`, not below the node's own, makes it follow. -/
theorem followLeader_eq (l : String) (h : n.currentTerm ≤ t) :
    ∃ v, n.followLeader t l = n.follow t v l n.noopIndex ∧
      (n.currentTerm < t ∧ v = "" ∨ v = n.votedFor ∧ t = n.currentTerm) := by
  unfold Node.followLeader
  by_cases hlt : t > n.currentTerm
  · rw [if_pos hlt]
    exact ⟨"", rfl, Or.inl ⟨hlt, rfl⟩⟩
  · obtain rfl : t = n.currentTerm := by omega
    rw [if_neg hlt]
    exact ⟨n.votedFor, rfl, Or.inr ⟨rfl, rfl⟩⟩

theorem Moves.logged (h : Moves K s S S' r n) (hl : n.Logged n') : Moves K s S S' r n' := by
  obtain ⟨wal, writes, rfl⟩ := hl
  exact { h with
    node := { h.node with
      sound := { h.node.sound with }
      leader := fun hr => { h.node.leader hr with } } }

/-! ## 3. Voting -/

/-- **Campaigning**: the next term, and a vote for itself. -/
theorem Moves.becomeCandidate (h : Inv K s S) (hr : r ∈ K.voters) :
    ∃ S', Moves K s S S' r (s.node r).becomeCandidate.1 := by
  have hn := h.nodes r
  unfold Node.becomeCandidate
  split
  · exact ⟨S, Moves.refl h r⟩
  have hle : S.cur r ≤ S.cur r + 1 := Nat.le_succ _
  have hself : ((S.raise r (S.cur r + 1)).vote r r).cur r = S.cur r + 1 := raise_cur_self S r _
  have hnew : ∀ b ∈ ((S.raise r (S.cur r + 1)).vote r r).ballots,
      b ∈ S.ballots ∨ b.voter = r ∧ b.cand = r ∧ b.term = S.cur r + 1 ∧ b.log = S.log r := by
    intro b hb
    rcases List.mem_cons.mp hb with rfl | hb
    · exact Or.inr ⟨rfl, rfl, raise_cur_self S r _, rfl⟩
    · exact Or.inl hb
  refine ⟨(S.raise r (S.cur r + 1)).vote r r, (h.coherent.raise hle).vote r r, ?_,
    (Grows.raise hle).trans (Grows.vote _ r r), ?_, fun q hq => ⟨rfl, raise_cur_of_ne S _ hq⟩,
    fun _ _ hl => Or.inl hl, fun b hb => ?_, fun _ => Or.inl (by rw [hself]; omega), le_rfl, le_rfl⟩
  · refine (h.elected.raise hle).vote (h.coherent.raise hle) fun b hb hbv ht => ?_
    rw [raise_cur_self] at ht
    exact absurd ⟨b, hb, hbv, ht, rfl⟩ (h.not_voted (Nat.lt_succ_self _))
  · refine { hn with
      term := by rw [hself, ← hn.term]
      sound := { hn.sound with }
      vote := fun c => ?_
      candidate := fun _ => ?_
      leader := fun hl => by cases hl
      secured := by
        rw [hself]
        exact hn.secured.mono hle fun _ hx => hx }
    · rw [hself]
      constructor
      · rintro ⟨b, hb, hv, ht, rfl⟩
        rcases hnew b hb with hb | ⟨-, hc, -⟩
        · exact absurd ⟨b, hb, hv, ht, rfl⟩ (h.not_voted (Nat.lt_succ_self _))
        · exact hc.symm ▸ ⟨hn.id, fun h0 => K.named (h0 ▸ hr)⟩
      · rintro ⟨hc, -⟩
        exact ⟨_, List.mem_cons_self, rfl, raise_cur_self S r _, hn.id.symm.trans hc⟩
    · rw [hself]
      refine ⟨fun hl => ?_, hn.id, fun b hb hc ht => ?_⟩
      · have := (h.coherent.leader _ r hl).1
        omega
      · rcases hnew b hb with hb | ⟨-, -, -, hlog⟩
        · have := h.asked b hb
          rw [hc] at this
          omega
        · rw [hlog]
          exact UpToDate.refl _ _
  · rcases hnew b hb with hb | ⟨hv, hc, ht, -⟩
    · exact Or.inl hb
    · exact Or.inr ⟨hv, by rw [ht, hc, hself], fun hne => absurd hc hne⟩

/-- **Granting a vote**, on top of a move that has brought the node to the term: the node is no
candidate and has cast no other vote in its term, and its log is no better than that of `c`. -/
theorem Moves.vote (h : Moves K s S S₁ r n₁) (hballots : S₁.ballots = S.ballots)
    (hrole : n₁.role ≠ .candidate) (hne : c ≠ "") (hvote : n₁.votedFor = "" ∨ n₁.votedFor = c)
    (hasked : S₁.cur r ≤ S₁.cur c)
    (hup : (s.node c).role = .candidate → S₁.cur r = S.cur c →
      UpToDate Entry.term (S.log c) (S₁.log r)) :
    Moves K s S (S₁.vote r c) r { n₁ with votedFor := c } := by
  have hfree : ∀ b ∈ S₁.ballots, b.voter = r → b.term = S₁.cur r → b.cand = c := by
    intro b hb hv ht
    obtain ⟨h₁, h₂⟩ := (h.node.vote b.cand).mp ⟨b, hb, hv, ht, rfl⟩
    rcases hvote with h0 | h0
    · exact absurd (h₁.symm.trans h0) h₂
    · exact h₁.symm.trans h0
  refine { h with
    coherent := h.coherent.vote r c
    elected := h.elected.vote h.coherent hfree
    grows := h.grows.trans (Grows.vote _ r c)
    node := { h.node with
      sound := { h.node.sound with }
      vote := fun c' => ⟨?_, ?_⟩
      candidate := fun hr => absurd hr hrole
      leader := fun hr => { h.node.leader hr with } }
    ballots := fun b hb => ?_
    candidate := fun hr => absurd hr hrole }
  · rintro ⟨b, hb, hv, ht, rfl⟩
    rcases List.mem_cons.mp hb with rfl | hb
    · exact ⟨rfl, hne⟩
    · have hc := hfree b hb hv ht
      exact ⟨hc.symm, hc ▸ hne⟩
  · rintro ⟨rfl, -⟩
    exact ⟨_, List.mem_cons_self, rfl, rfl, rfl⟩
  · rcases List.mem_cons.mp hb with rfl | hb
    · exact Or.inr ⟨rfl, hasked, fun _ => hup⟩
    · exact Or.inl (hballots ▸ hb)

/-- The first part of `HandleRequestVote`: the node is in the term of the request. -/
theorem Moves.meetTerm (h : Inv K s S) (hle : (s.node r).currentTerm ≤ t) :
    ∃ S₁, Moves K s S S₁ r (if t > (s.node r).currentTerm then { s.node r with
        currentTerm := t, votedFor := "", role := .follower, leaderID := "" } else s.node r) ∧
      S₁.ballots = S.ballots ∧ S₁.cur r = t ∧ S₁.log r = S.log r := by
  by_cases hlt : t > (s.node r).currentTerm
  · rw [if_pos hlt]
    exact ⟨S.raise r t, Moves.raise h (Or.inl ⟨hlt, rfl⟩), rfl, raise_cur_self S r _, rfl⟩
  · rw [if_neg hlt]
    have := (h.nodes r).term
    exact ⟨S, Moves.refl h r, rfl, by omega, rfl⟩

/-- **`HandleRequestVote`** is a move, and a granted vote is a ballot. -/
theorem Moves.handleRequestVote {args : RequestVote} {els : List Election} {e : ℕ}
    {replies : List RequestVoteReply} (h : Inv K s S) (hr : r ∈ K.voters) (hc : c ∈ K.voters)
    (hcr : c ≠ r) (hcall : VoteCall S s.node els c r e args replies) :
    ∃ S', Moves K s S S' r ((s.node r).handleRequestVote args).1 ∧
      (((s.node r).handleRequestVote args).2.voteGranted = true → Voted S' r args.term c) := by
  obtain rfl := hcall.candidate
  unfold Node.handleRequestVote
  dsimp only
  split
  · exact ⟨S, Moves.refl h r, fun hg => by cases hg⟩
  next hstale =>
  obtain ⟨S₁, hm, hballots, hcur, hlogs⟩ := Moves.meetTerm h (not_lt.mp hstale)
  generalize (if args.term > (s.node r).currentTerm then { s.node r with
    currentTerm := args.term, votedFor := "", role := .follower, leaderID := "" }
    else s.node r) = n₁ at hm
  split
  next hgrant =>
    obtain ⟨hfree, hup⟩ := hgrant
    refine ⟨_, hm.vote hballots (fun hcand => ?_) (fun h0 => K.named (h0 ▸ hc)) hfree ?_
      fun hcand heq => ?_, fun _ => ⟨_, List.mem_cons_self, rfl, hcur, rfl⟩⟩
    · -- a candidate has voted for itself
      have hself := (hm.node.candidate hcand).2.1
      rcases hfree with h0 | h0
      · exact K.named (hself.symm.trans h0 ▸ hr)
      · exact hcr (h0.symm.trans hself)
    · rw [hcur]
      exact hcall.term_le.trans (hm.grows.cur _)
    · obtain ⟨hli, hlt⟩ := hcall.log hcand (hcur.symm.trans heq)
      have hup := of_decide_eq_true hup
      have hholds := hm.node.sound.holds
      rw [hholds.lastTerm_eq, hholds.lastIndex, hli, hlt] at hup
      exact hup
  next => exact ⟨S₁, hm, fun hg => by cases hg⟩

/-! ## 4. Taking entries and snapshots

The order is the source's: the node hears of the term, checks where the entries start, takes them
over, and follows the leader's commit index.  Each part is a move on top of the one before. -/

section Accepting

variable {P F : List Entry} {i : ℕ} {leader : String} {args : AppendEntries}

@[simp] theorem accept_log_self (S : Abstract) (r : String) (P : List Entry) :
    (S.accept Entry.term r P).log r = accepted (S.log r) P := Function.update_self ..

theorem accept_log_of_ne (S : Abstract) (P : List Entry) (h : q ≠ r) :
    (S.accept Entry.term r P).log q = S.log q := Function.update_of_ne h ..

theorem take_of_initial {G : List Entry} {c : ℕ} (h : F.take c <+: G) (hc : c ≤ F.length)
    (hi : i ≤ c) : G.take i = F.take i := by
  have heq := List.prefix_iff_eq_take.mp h
  rw [List.length_take_of_le hc] at heq
  have := congrArg (List.take i) heq
  rw [List.take_take, List.take_take, Nat.min_eq_left hi] at this
  exact this.symm

theorem accepted_take (hi : i ≤ P.length) : (accepted F P).take i = P.take i :=
  take_of_initial (c := P.length) (by rw [List.take_length]; exact LeaderLog.prefix_accepted) le_rfl
    hi

/-- Two logs of coherent lines that carry the same term at an index agree up to it. -/
theorem agrees_by_term (hc : Coherent Entry.term S) (hP : P <+: S.line t) :
    Node.AgreesByTerm (S.log r) P := fun i hi hi' hterm =>
  LeaderLog.matching (hc.logs r) ((hc.lines t).of_initial hP) (List.take_prefix _ _)
    (List.take_prefix _ _) (by rw [List.length_take_of_le hi, List.length_take_of_le hi']) hterm

/-- What is committed is part of the line of the current leader, and survives an acceptance. -/
theorem NodeInv.committed_line (h : NodeInv K S r n) (hc : Coherent Entry.term S)
    (he : Elections Entry.term K.quorumBase S) (hled : S.lead (S.cur r) ≠ none)
    (hP : P <+: S.line (S.cur r)) :
    (S.log r).take n.commitIndex <+: S.line (S.cur r) ∧
      (S.log r).take n.commitIndex <+: accepted (S.log r) P := by
  have hline := h.secured.prefix_line hc he hled
  exact ⟨hline, LeaderLog.accepted_keeps (List.take_prefix _ _) hline hP⟩

theorem NodeInv.accept (h : NodeInv K S r n) (hrole : n.role = .follower)
    (only : ∃ log last commit cut snapshot saves fsm, n' = { n with
      log := log, lastApplied := last, commitIndex := commit, truncated := cut
      snapshot := snapshot, saves := saves, fsm := fsm })
    (hs : n'.Sound (accepted (S.log r) P)) (hset : n'.lastApplied = n'.commitIndex)
    (hsec : K.Secures S (S.cur r) ((accepted (S.log r) P).take n'.commitIndex))
    (hcut : ∀ x ∈ n'.truncated, x.2 < x.1)
    (hsnap : ∀ snap, n'.snapshot = some snap →
      n.snapshotStore = true ∧ Node.SnapshotOf (accepted (S.log r) P) n'.log.base snap) :
    NodeInv K (S.accept Entry.term r P) r n' := by
  obtain ⟨log, last, commit, cut, snapshot, saves, fsm, rfl⟩ := only
  have hg : Grows S (S.accept Entry.term r P) := Grows.accept S r P
  exact { h with
    sound := by rw [accept_log_self]; exact hs
    settled := hset
    candidate := fun hr => absurd (hrole.symm.trans hr) (by decide)
    leader := fun hr => absurd (hrole.symm.trans hr) (by decide)
    secured := by
      rw [accept_log_self]
      exact hsec.mono le_rfl hg.acks
    applied := h.applied_grow hg
    truncated := hcut
    snapshot := by
      rw [accept_log_self]
      exact hsnap }

/-- An acceptance, on top of a move that has brought the node to the leader's term. -/
theorem Moves.accept (h : Moves K s S S₁ r n₁) (hballots : S₁.ballots = S.ballots)
    (hP : P <+: S₁.line (S₁.cur r)) (hled : S₁.lead (S₁.cur r) ≠ none)
    (hnode : NodeInv K (S₁.accept Entry.term r P) r n') (hrole : n'.role = .follower)
    (hbase : n₁.log.base ≤ n'.log.base) (hcommit : n₁.commitIndex ≤ n'.commitIndex) :
    Moves K s S (S₁.accept Entry.term r P) r n' where
  coherent := h.coherent.accept hP
  elected := h.elected.accept h.coherent hP hled
  grows := h.grows.trans (Grows.accept S₁ r P)
  node := hnode
  others := fun q hq => by
    rw [accept_log_of_ne S₁ P hq]
    exact h.others q hq
  lead := h.lead
  ballots := fun b hb => Or.inl (hballots ▸ hb)
  candidate := fun hc => absurd (hrole.symm.trans hc) (by decide)
  base := h.base.trans hbase
  commit := h.commit.trans hcommit

/-- The log is never cut at or below the commit index. -/
theorem NodeInv.commit_le_cut {q : ℕ} (h : NodeInv K S r n)
    (hline : (S.log r).take n.commitIndex <+: S.line (S.cur r)) (hP : P <+: S.line (S.cur r))
    (hqP : q < P.length) (hne : (S.log r).take (q + 1) ≠ P.take (q + 1)) :
    n.commitIndex ≤ q := by
  by_contra hlt
  apply hne
  rw [← take_of_initial hline h.sound.commit_le (by omega), List.prefix_iff_eq_take.mp hP,
    List.take_take, Nat.min_eq_left (by omega)]

/-- An AppendEntries that passes the checks agrees with the log up to its start. -/
theorem NodeInv.agrees (h : NodeInv K S r n) (hc : Coherent Entry.term S)
    (hP : AppendOf K S leader args P) (hb : n.log.base ≤ args.prevLogIndex)
    (hin : args.prevLogIndex ≤ (S.log r).length)
    (hprev : 0 < args.prevLogIndex → n.log.termAt args.prevLogIndex = args.prevLogTerm) :
    (S.log r).take args.prevLogIndex = P.take args.prevLogIndex := by
  rcases Nat.eq_zero_or_pos args.prevLogIndex with h0 | hpos
  · rw [h0, List.take_zero, List.take_zero]
  · refine agrees_by_term hc hP.line _ hin hP.prev_le ?_
    rw [← h.sound.holds.termAt hb hin, hprev hpos, hP.prevTerm]

/-- The node after the log of the leader is taken over: nothing committed is cut off. -/
theorem NodeInv.takesOver (h : NodeInv K S r n) (hc : Coherent Entry.term S)
    (he : Elections Entry.term K.quorumBase S) (hP : AppendOf K S leader args P)
    (hcur : S.cur r = args.term) (hrole : n.role = .follower)
    (htake : n.TakesOver (S.log r) P n₁) :
    NodeInv K (S.accept Entry.term r P) r n₁ ∧ n₁.commitIndex = n.commitIndex := by
  have hline : P <+: S.line (S.cur r) := hcur ▸ hP.line
  obtain ⟨hcl, hkeep⟩ := h.committed_line hc he (by rw [hcur, hP.lead]; simp) hline
  have hset := h.settled
  have hindices : n₁.lastApplied = n₁.commitIndex ∧ n₁.commitIndex = n.commitIndex ∧
      ∀ x ∈ n₁.truncated, x.2 < x.1 := by
    rcases htake.indices with ⟨hlast, hcommit, hcut, -⟩ | ⟨q, -, hqP, hne, -, hlast, hcommit, hcut⟩
    · exact ⟨by omega, hcommit, hcut ▸ h.truncated⟩
    · have hle := h.commit_le_cut hcl hline hqP hne
      refine ⟨by omega, by omega, fun x hx => ?_⟩
      rw [hcut] at hx
      rcases List.mem_cons.mp hx with rfl | hx
      · exact Nat.lt_succ_of_le hle
      · exact h.truncated x hx
  obtain ⟨hlast, hcommit, hcut⟩ := hindices
  obtain ⟨log, last, commit, cut, heq⟩ := htake.only
  refine ⟨h.accept hrole ⟨_, _, _, _, _, _, _, heq⟩ (htake.sound h.sound hP.plain) hlast ?_ hcut
    fun snap hsnap => ?_, hcommit⟩
  · rw [hcommit, take_of_initial hkeep h.sound.commit_le le_rfl]
    exact h.secured
  · obtain ⟨hstore, hle, ht⟩ := h.snapshot snap (by rw [heq] at hsnap; exact hsnap)
    have hin := hle.trans (h.sound.base_le.trans h.sound.applied_le)
    exact ⟨hstore, htake.base.symm ▸ hle, by rw [take_of_initial hkeep h.sound.commit_le hin]; exact ht⟩

theorem NodeInv.takeEntries (h : NodeInv K S r n) (hc : Coherent Entry.term S)
    (he : Elections Entry.term K.quorumBase S) (hP : AppendOf K S leader args P)
    (hcur : S.cur r = args.term) (hrole : n.role = .follower)
    (hb : n.log.base ≤ args.prevLogIndex) (hin : args.prevLogIndex ≤ n.log.lastIndex)
    (hprev : 0 < args.prevLogIndex → n.log.termAt args.prevLogIndex = args.prevLogTerm) :
    NodeInv K (S.accept Entry.term r P) r (n.takeEntries E args) ∧
      (n.takeEntries E args).role = .follower ∧
      n.log.base ≤ (n.takeEntries E args).log.base ∧
      n.commitIndex ≤ (n.takeEntries E args).commitIndex := by
  rw [h.sound.holds.lastIndex] at hin
  have hpre := h.agrees hc hP hb hin hprev
  obtain ⟨n₁, htake, happ, hend⟩ := Node.takeEntries_spec (E := E) h.sound hP.plain hb hin hP.prev_le
    hpre hP.entries (agrees_by_term hc hP.line)
  obtain ⟨hnode, hcommit⟩ := h.takesOver hc he hP hcur hrole htake
  have hle : args.leaderCommit ≤ (accepted (S.log r) P).length :=
    hP.commit_le.trans LeaderLog.prefix_accepted.length_le
  rw [min_eq_left hle] at happ hend
  have hgrow : Grows S (S.accept Entry.term r P) := Grows.accept S r P
  have hsec : K.Secures (S.accept Entry.term r P) ((S.accept Entry.term r P).cur r)
      (((S.accept Entry.term r P).log r).take (max n₁.commitIndex args.leaderCommit)) := by
    rcases le_total args.leaderCommit n₁.commitIndex with hlc | hlc
    · rw [max_eq_left hlc]
      exact hnode.secured
    · rw [max_eq_right hlc, accept_log_self, accepted_take hP.commit_le]
      exact hP.secured.mono (le_of_eq hcur.symm) hgrow.acks
  have hdone := hnode.commit (le_max_left _ _) hsec (by rw [accept_log_self]; exact happ) hend
  refine ⟨hdone, ?_, htake.base.symm.le.trans happ.base, ?_⟩
  · obtain ⟨_, _, _, _, _, _, heq⟩ := happ.only
    obtain ⟨_, _, _, _, heq₁⟩ := htake.only
    rw [heq, heq₁]
    exact hrole
  · rw [← hdone.settled, hend, ← hcommit]
    exact le_max_left _ _

/-- **`HandleAppendEntries`** is a move, and a successful reply is an acknowledgement. -/
theorem Moves.handleAppendEntries (h : Inv K s S) (hP : AppendOf K S leader args P) :
    ∃ S', Moves K s S S' r ((s.node r).handleAppendEntries E args).1 ∧
      (((s.node r).handleAppendEntries E args).2.success = true →
        ((s.node r).handleAppendEntries E args).2.term ≤ args.term ∧ Acked Entry.term S' r P) := by
  rcases (s.node r).handleAppendEntries_cases E args with ⟨-, heq⟩ | ⟨hle, n₁, hlog, hcases⟩
  · rw [heq]
    exact ⟨S, Moves.refl h r, fun hs => by cases hs⟩
  obtain ⟨v, hf, hv⟩ := followLeader_eq (n := s.node r) args.leaderID hle
  rw [hf] at hlog
  have hm : Moves K s S (S.raise r args.term) r n₁ := (Moves.raise h hv).logged hlog
  rcases hcases with heq | ⟨hb, hin, hprev, heq⟩
  · rw [heq]
    exact ⟨_, hm, fun hs => by cases hs⟩
  rw [heq]
  have hP₁ := hP.grow hm.grows
  have hcur := raise_cur_self S r args.term
  obtain ⟨hrole, hsame⟩ : n₁.role = .follower ∧ n₁.log = (s.node r).log := by
    obtain ⟨_, _, rfl⟩ := hlog
    exact ⟨rfl, rfl⟩
  obtain ⟨hnode, hrole', hbase, hcommit⟩ := hm.node.takeEntries (E := E) hm.coherent hm.elected hP₁
    hcur hrole (hsame ▸ hb) (hsame ▸ hin) (hsame ▸ hprev)
  refine ⟨(S.raise r args.term).accept Entry.term r P, hm.accept rfl (hcur.symm ▸ hP₁.line)
    (by rw [hcur, hP₁.lead]; simp) hnode hrole' hbase hcommit, fun _ => ⟨hle, hP.nonempty, P, ?_,
    List.prefix_rfl, rfl⟩⟩
  unfold LeaderLog.State.accept
  rw [if_pos ⟨hP.nonempty, hP.last.trans hcur.symm⟩]
  exact List.mem_cons_self

/-- **`HandleInstallSnapshot`** is a move.  A snapshot that is installed but not saved leaves an
older one behind, which fits the log because nothing committed is ever replaced. -/
theorem Moves.handleInstallSnapshot {args : InstallSnapshot} (h : Inv K s S)
    (hP : SnapshotCall K S leader args P) :
    ∃ S', Moves K s S S' r ((s.node r).handleInstallSnapshot E args).1 := by
  rcases (s.node r).handleInstallSnapshot_cases E args with ⟨-, heq⟩ | ⟨hle, hcases⟩
  · rw [heq]
    exact ⟨S, Moves.refl h r⟩
  obtain ⟨v, hf, hv⟩ := followLeader_eq (n := s.node r) args.leaderID hle
  have hm := Moves.raise (k := (s.node r).noopIndex) (l := args.leaderID) h hv
  rw [hf] at hcases
  rcases hcases with heq | ⟨hlt, fsm, saves, snapshot, heq, -, hsnap⟩
  · rw [heq]
    exact ⟨_, hm⟩
  rw [heq]
  have hcur := raise_cur_self S r args.term
  have hP₁ := hP.grow hm.grows
  have hlineP : P <+: (S.raise r args.term).line ((S.raise r args.term).cur r) :=
    hcur.symm ▸ hP₁.line
  have hled : (S.raise r args.term).lead ((S.raise r args.term).cur r) ≠ none := by
    rw [hcur, hP₁.lead]
    simp
  have hkeep : (S.log r).take (s.node r).commitIndex <+: accepted (S.log r) P :=
    (hm.node.committed_line hm.coherent hm.elected hled hlineP).2
  have hn := h.nodes r
  obtain ⟨hholds, hbl, hal, hcl, hplain⟩ := hn.sound
  have hset := hn.settled
  have hlen : P.length ≤ (accepted (S.log r) P).length := LeaderLog.prefix_accepted.length_le
  have hbase := Node.rebased_base args (s.node r).log
  have hindex := hP.index
  have hbase_le : (s.node r).log.base ≤ (Node.rebased args (s.node r).log).base := by omega
  have hmax : max (s.node r).commitIndex args.lastIncludedIndex = args.lastIncludedIndex := by omega
  have htake : (accepted (S.log r) P).take args.lastIncludedIndex = P := by
    rw [accepted_take (le_of_eq hindex), hindex, List.take_length]
  refine ⟨(S.raise r args.term).accept Entry.term r P, hm.accept rfl hlineP hled
    (hm.node.accept rfl ⟨_, _, _, _, _, _, _, rfl⟩ ⟨?_, le_of_eq hbase, le_max_right _ _, ?_, ?_⟩ hmax.symm ?_ hn.truncated
      fun snap hsn => ?_) rfl hbase_le (le_max_left _ _)⟩
  · exact Node.rebased_holds hholds (hbl.trans hlt.le) hP.index hP.term
      (agrees_by_term hm.coherent hP₁.line)
  · change max _ _ ≤ (accepted (S.log r) P).length
    omega
  · exact Node.accepted_plain hplain hP.plain
  · -- committed before, or part of the snapshot
    change K.Secures _ _ ((accepted (S.log r) P).take (max _ _))
    rw [hmax, htake, hcur]
    exact hP₁.secured
  · rcases hsnap with ⟨hold, -⟩ | ⟨hstore, hnew⟩
    · obtain ⟨hstore, hle', ht⟩ := hn.snapshot snap (hold ▸ hsn)
      refine ⟨hstore, hle'.trans hbase_le, ?_⟩
      change _ = endTerm ((accepted (S.log r) P).take snap.lastIncludedIndex)
      rw [take_of_initial hkeep hcl (hle'.trans (hbl.trans hal))]
      exact ht
    · obtain rfl := Option.some.inj (hnew.symm.trans hsn)
      refine ⟨hstore, hbase.ge, ?_⟩
      change _ = endTerm ((accepted (S.log r) P).take args.lastIncludedIndex)
      rw [htake]
      exact hP.term

end Accepting

end Cachey.Raft
