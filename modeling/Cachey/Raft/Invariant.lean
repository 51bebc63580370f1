/-
# The cluster follows the abstract protocol

The invariant of a cluster whose voters are fixed and whose servers do not crash, as a relation
between its state and a state `S` of the abstract protocol of `LeaderLog`: what every node, every
call, every election and every confirmation has to do with `S`.

* A node's log stands for `S.log r`, and what it has committed is SECURED in its term; a leader
  leads its term in `S`, and every match index above the commit index is an acknowledgement in `S`.
* A granted vote is a ballot of `S`, and an election counts ballots of distinct voters.
* An AppendEntries carries the rest of a prefix `P` of the line of its term, a successful reply
  is an acknowledgement of `P`.

`S` only grows (`LeaderLog.Grows`), so that what was once said about a message stays true.  The
module ends with what happens to all this when ONE server moves (`Inv.setNode`).
-/
import Cachey.Raft.Handling

namespace Cachey.Raft

open LeaderLog (Coherent Elections Acked Secured UpToDate Grows)

/-- A state of the abstract protocol. -/
abbrev Abstract := LeaderLog.State String Entry

/-! ## 1. Nodes -/

section Definitions

variable {σ : Type}

def Cluster.Fixed (K : Cluster σ) : Prop := ∀ r ∈ K.servers, r ∈ K.voters

def Cluster.quorumBase (K : Cluster σ) : Finset String := K.voters.toFinset

/-- `X` is decided by term `t`. -/
abbrev Cluster.Secures (K : Cluster σ) (S : Abstract) (t : ℕ) (X : List Entry) : Prop :=
  Secured Entry.term K.quorumBase S t X

/-- A vote of `v` for `c` in term `t`. -/
def Voted (S : Abstract) (v : String) (t : ℕ) (c : String) : Prop :=
  ∃ b ∈ S.ballots, b.voter = v ∧ b.term = t ∧ b.cand = c

/-- `m` is a match index a leader may keep for `p`: committed, or acknowledged by `p`. -/
def Matched (S : Abstract) (r : String) (n : Node σ) (p : String) (m : ℕ) : Prop :=
  m ≤ n.commitIndex ∨ m ≤ (S.log r).length ∧ Acked Entry.term S p ((S.log r).take m)

/-- What more a leader has to do with the abstract state. -/
structure LeaderInv (S : Abstract) (r : String) (n : Node σ) : Prop where
  leads : S.lead (S.cur r) = some r
  acked : Acked Entry.term S r (S.log r)
  last : endTerm (S.log r) = S.cur r
  matched : ∀ p m, n.matchIndex.lookup p = some m → Matched S r n p m
  next : ∀ p ∈ n.peers, n.nextIndexOf p ≤ (S.log r).length + 1

/-- What node `n` of server `r` has to do with the abstract state.  The vote it knows of is the one
it has cast in its term, `""` standing for none. -/
structure NodeInv (K : Cluster σ) (S : Abstract) (r : String) (n : Node σ) : Prop where
  id : n.id = r
  peers : r ∈ K.voters → n.peers = K.voters.erase r
  joining : n.joining = []
  term : n.currentTerm = S.cur r
  sound : n.Sound (S.log r)
  settled : n.lastApplied = n.commitIndex
  vote : ∀ c, Voted S r (S.cur r) c ↔ n.votedFor = c ∧ c ≠ ""
  candidate : n.role = .candidate → S.lead (S.cur r) ≠ some r ∧ n.votedFor = r ∧
    ∀ b ∈ S.ballots, b.cand = r → b.term = S.cur r → UpToDate Entry.term (S.log r) b.log
  leader : n.role = .leader → LeaderInv S r n
  secured : K.Secures S (S.cur r) ((S.log r).take n.commitIndex)
  applied : ∀ x ∈ n.applied, 0 < x.1 ∧ ∃ t X, K.Secures S t X ∧ X[x.1 - 1]? = some x.2
  truncated : ∀ x ∈ n.truncated, x.2 < x.1
  snapshot : ∀ snap, n.snapshot = some snap →
    n.snapshotStore = true ∧ Node.SnapshotOf (S.log r) n.log.base snap
  keys : ∀ p m, n.matchIndex.lookup p = some m → p ∈ n.peers

/-! ## 2. Calls, elections, confirmations -/

/-- An AppendEntries of the leader of its term, whose log was `P`; what it tells is committed is
secured. -/
structure AppendOf (K : Cluster σ) (S : Abstract) (leader : String) (args : AppendEntries)
    (P : List Entry) : Prop where
  lead : S.lead args.term = some leader
  line : P <+: S.line args.term
  nonempty : P ≠ []
  last : endTerm P = args.term
  prev_le : args.prevLogIndex ≤ P.length
  prevTerm : args.prevLogTerm = endTerm (P.take args.prevLogIndex)
  entries : args.entries = P.drop args.prevLogIndex
  plain : ∀ e ∈ P, e.config = none
  commit_le : args.leaderCommit ≤ P.length
  secured : K.Secures S args.term (P.take args.leaderCommit)

/-- A snapshot of `P`, sent by the leader of its term. -/
structure SnapshotCall (K : Cluster σ) (S : Abstract) (leader : String) (args : InstallSnapshot)
    (P : List Entry) : Prop where
  lead : S.lead args.term = some leader
  line : P <+: S.line args.term
  index : args.lastIncludedIndex = P.length
  term : args.lastIncludedTerm = endTerm P
  plain : ∀ e ∈ P, e.config = none
  secured : K.Secures S args.term P

/-- The election a call is made for. -/
def Call.election (c : Call) : Option ℕ :=
  match c.rpc with
  | .vote e _ _ => some e
  | _ => none

/-- A vote request and its replies. -/
structure VoteCall (S : Abstract) (node : String → Node σ) (elections : List Election)
    (caller callee : String) (e : ℕ) (args : RequestVote) (replies : List RequestVoteReply) :
    Prop where
  candidate : args.candidateID = caller
  term_le : args.term ≤ S.cur caller
  log : (node caller).role = .candidate → args.term = S.cur caller →
    args.lastLogIndex = (S.log caller).length ∧ args.lastLogTerm = endTerm (S.log caller)
  election : ∃ el, elections[e]? = some el ∧ el.node = caller ∧ el.term = args.term
  votes : ∀ reply ∈ replies, reply.voteGranted = true → Voted S callee args.term caller

/-- What the request and the replies of a call say about the abstract state. -/
def RpcInv (K : Cluster σ) (S : Abstract) (node : String → Node σ) (elections : List Election)
    (caller callee : String) : Rpc → Prop
  | .vote e args replies => VoteCall S node elections caller callee e args replies
  | .append _ args replies => ∃ P, AppendOf K S caller args P ∧
    ∀ reply ∈ replies, reply.success = true →
      reply.term ≤ args.term ∧ Acked Entry.term S callee P
  | .snapshot args _ => (∃ P, SnapshotCall K S caller args P) ∧
    args.lastIncludedIndex ≤ (node caller).log.base

structure CallInv (K : Cluster σ) (S : Abstract) (node : String → Node σ)
    (elections : List Election) (c : Call) : Prop where
  rpc : RpcInv K S node elections c.caller c.callee c.rpc
  caller : c.caller ∈ K.voters
  callee : c.callee ∈ K.voters.erase c.caller

/-- The votes an election has counted are ballots of distinct peers, none of whose calls is still
waiting. -/
structure ElectionInv (K : Cluster σ) (S : Abstract) (calls : List Call) (e : ℕ) (el : Election) :
    Prop where
  majority : el.majority = K.voters.length / 2 + 1
  node : el.node ∈ K.voters
  enough : el.promoting = true → el.majority ≤ el.votes
  votes : ∃ granted : Finset String, el.votes = granted.card + 1 ∧
    ∀ v ∈ granted, v ∈ K.voters.erase el.node ∧ Voted S v el.term el.node ∧
      ∀ c ∈ calls, c.election = some e → c.waiting = true → c.callee ≠ v

/-! ## 3. The cluster -/

/-- **The invariant.**  It relates a state of the cluster with ONE state of the abstract protocol,
which a step may replace by a later one.  `once` is the only clause about the network as such: an
election has at most one call to each peer, so a vote that is served twice is counted once. -/
structure Inv (K : Cluster σ) (s : ClusterState σ) (S : Abstract) : Prop where
  coherent : Coherent Entry.term S
  elected : Elections Entry.term K.quorumBase S
  asked : ∀ b ∈ S.ballots, b.term ≤ S.cur b.cand
  nodes : ∀ r, NodeInv K S r (s.node r)
  calls : ∀ c ∈ s.calls, CallInv K S s.node s.elections c
  confirms : ∀ cf ∈ s.confirms, cf.node ∈ K.voters ∧ ∃ P, AppendOf K S cf.node cf.args P
  elections : ∀ e el, s.elections[e]? = some el → ElectionInv K S s.calls e el
  once : ∀ (k k' : ℕ) (c c' : Call), s.calls[k]? = some c → s.calls[k']? = some c' →
    c.election.isSome = true → c.election = c'.election → c.callee = c'.callee → k = k'
  spawned : ∀ p ∈ s.spawned, p.2 ∈ K.voters.erase p.1
  lagging : ∀ p ∈ s.lagging, p.2 ∈ K.voters.erase p.1

end Definitions

/-! ## 4. What growth keeps -/

section Growth

variable {σ : Type} {K : Cluster σ} {S S' : Abstract} {s : ClusterState σ} {n n' : Node σ}
  {r leader q caller callee : String} {P : List Entry} {els : List Election} {args : AppendEntries}
  {e : ℕ}

theorem Voted.grow {v c : String} {t : ℕ} (h : Voted S v t c) (hg : Grows S S') :
    Voted S' v t c := by
  obtain ⟨b, hb, hrest⟩ := h
  exact ⟨b, hg.ballots b hb, hrest⟩

theorem Matched.grow {p : String} {m : ℕ} (h : Matched S r n p m) (hg : Grows S S')
    (hlog : S'.log r = S.log r) : Matched S' r n p m := by
  unfold Matched
  rw [hlog]
  exact h.imp_right fun ha => ⟨ha.1, ha.2.mono hg.acks⟩

theorem AppendOf.grow (h : AppendOf K S leader args P) (hg : Grows S S') :
    AppendOf K S' leader args P :=
  { h with
    lead := hg.lead _ _ h.lead
    line := h.line.trans (hg.line _)
    secured := h.secured.mono le_rfl hg.acks }

theorem SnapshotCall.grow {args : InstallSnapshot} (h : SnapshotCall K S leader args P)
    (hg : Grows S S') : SnapshotCall K S' leader args P :=
  { h with
    lead := hg.lead _ _ h.lead
    line := h.line.trans (hg.line _)
    secured := h.secured.mono le_rfl hg.acks }

theorem NodeInv.applied_grow (h : NodeInv K S r n) (hg : Grows S S') : ∀ x ∈ n.applied,
    0 < x.1 ∧ ∃ t X, K.Secures S' t X ∧ X[x.1 - 1]? = some x.2 := fun x hx => by
  obtain ⟨hpos, t, X, hX, hget⟩ := h.applied x hx
  exact ⟨hpos, t, X, hX.mono le_rfl hg.acks, hget⟩

/-- A node that took no part in the move: nobody leads, votes or is voted for behind its back. -/
theorem NodeInv.grow (h : NodeInv K S r n) (hg : Grows S S') (hlog : S'.log r = S.log r)
    (hcur : S'.cur r = S.cur r) (hlead : ∀ t, S'.lead t = some r → S.lead t = some r)
    (hvotes : ∀ b ∈ S'.ballots, b ∈ S.ballots ∨ b.voter ≠ r ∧ (b.cand = r → b.term = S.cur r →
      n.role = .candidate → UpToDate Entry.term (S.log r) b.log)) : NodeInv K S' r n :=
  { h with
    term := hcur ▸ h.term
    sound := hlog ▸ h.sound
    vote := fun c => by
      rw [hcur, ← h.vote c]
      refine ⟨fun ⟨b, hb, hv, hrest⟩ => ?_, fun hv => hv.grow hg⟩
      exact ⟨b, (hvotes b hb).resolve_right fun hno => hno.1 hv, hv, hrest⟩
    candidate := fun hr => by
      obtain ⟨hun, hself, hup⟩ := h.candidate hr
      rw [hcur, hlog]
      refine ⟨fun hl => hun (hlead _ hl), hself, fun b hb hc ht => ?_⟩
      rcases hvotes b hb with hb | hb
      · exact hup b hb hc ht
      · exact hb.2 hc ht hr
    leader := fun hr => by
      obtain ⟨h₁, h₂, h₃, h₄, h₅⟩ := h.leader hr
      refine ⟨?_, hlog ▸ h₂.mono hg.acks, ?_, fun p m hm => (h₄ p m hm).grow hg hlog, hlog ▸ h₅⟩
      · exact hcur ▸ hg.lead _ _ h₁
      · rw [hlog, hcur, h₃]
    secured := by
      rw [hcur, hlog]
      exact h.secured.mono le_rfl hg.acks
    applied := h.applied_grow hg
    snapshot := hlog ▸ h.snapshot }

theorem ElectionInv.grow {calls : List Call} {el : Election} (h : ElectionInv K S calls e el)
    (hg : Grows S S') : ElectionInv K S' calls e el :=
  { h with
    votes := by
      obtain ⟨granted, hcard, hall⟩ := h.votes
      refine ⟨granted, hcard, fun v hv => ?_⟩
      obtain ⟨h₁, h₂, h₃⟩ := hall v hv
      exact ⟨h₁, h₂.grow hg, h₃⟩ }

/-! ## 5. One server moves

Every critical section changes one node.  `Moves` collects what has to be shown about that node and
the abstract states around it; the rest of the cluster is then taken care of here, once. -/

/-- Server `r` goes to state `n'` while the abstract protocol goes from `S` to `S'`. -/
structure Moves (K : Cluster σ) (s : ClusterState σ) (S S' : Abstract) (r : String) (n' : Node σ) :
    Prop where
  coherent : Coherent Entry.term S'
  elected : Elections Entry.term K.quorumBase S'
  grows : Grows S S'
  node : NodeInv K S' r n'
  others : ∀ q, q ≠ r → S'.log q = S.log q ∧ S'.cur q = S.cur q
  lead : ∀ t q, S'.lead t = some q → S.lead t = some q ∨ q = r
  ballots : ∀ b ∈ S'.ballots, b ∈ S.ballots ∨ b.voter = r ∧ b.term ≤ S'.cur b.cand ∧
    (b.cand ≠ r → (s.node b.cand).role = .candidate → b.term = S.cur b.cand →
      UpToDate Entry.term (S.log b.cand) b.log)
  candidate : n'.role = .candidate → S.cur r < S'.cur r ∨
    (s.node r).role = .candidate ∧ S'.log r = S.log r ∧ S'.cur r = S.cur r
  base : (s.node r).log.base ≤ n'.log.base
  commit : (s.node r).commitIndex ≤ n'.commitIndex

theorem setNode_self (s : ClusterState σ) (r : String) (n : Node σ) :
    (s.setNode r n).node r = n := if_pos rfl

theorem setNode_of_ne (s : ClusterState σ) {r : String} (n : Node σ) (h : q ≠ r) :
    (s.setNode r n).node q = s.node q := if_neg h

theorem setNode_forall {p : String → Node σ → Prop} (hr : p r n') (hq : ∀ q, q ≠ r → p q (s.node q))
    (q : String) : p q ((s.setNode r n').node q) := by
  by_cases h : q = r
  · subst h
    rwa [setNode_self]
  · rw [setNode_of_ne s n' h]
    exact hq q h

variable (hm : Moves K s S S' r n')

include hm

theorem Moves.base_le (q : String) : (s.node q).log.base ≤ ((s.setNode r n').node q).log.base :=
  setNode_forall (p := fun q n => (s.node q).log.base ≤ n.log.base) hm.base (fun _ _ => le_rfl) q

theorem Moves.commit_le (q : String) :
    (s.node q).commitIndex ≤ ((s.setNode r n').node q).commitIndex :=
  setNode_forall (p := fun q n => (s.node q).commitIndex ≤ n.commitIndex) hm.commit
    (fun _ _ => le_rfl) q

theorem VoteCall.move {args : RequestVote} {replies : List RequestVoteReply}
    (h : VoteCall S s.node els caller callee e args replies) :
    VoteCall S' (s.setNode r n').node els caller callee e args replies where
  candidate := h.candidate
  term_le := h.term_le.trans (hm.grows.cur _)
  log := fun hr ht => by
    by_cases hc : caller = r
    · subst hc
      rw [setNode_self] at hr
      rcases hm.candidate hr with hlt | ⟨hold, hlog, hcur⟩
      · have := h.term_le
        omega
      · rw [hlog]
        exact h.log hold (ht.trans hcur)
    · rw [setNode_of_ne s n' hc] at hr
      obtain ⟨hlog, hcur⟩ := hm.others _ hc
      rw [hlog]
      exact h.log hr (ht.trans hcur)
  election := h.election
  votes := fun reply hrep hg => (h.votes reply hrep hg).grow hm.grows

theorem RpcInv.move {rpc : Rpc} (h : RpcInv K S s.node els caller callee rpc) :
    RpcInv K S' (s.setNode r n').node els caller callee rpc := by
  cases rpc with
  | vote e args replies => exact VoteCall.move hm h
  | append k args replies =>
    obtain ⟨P, hP, hacks⟩ := h
    refine ⟨P, hP.grow hm.grows, fun reply hrep hs => ?_⟩
    exact ⟨(hacks reply hrep hs).1, (hacks reply hrep hs).2.mono hm.grows.acks⟩
  | snapshot args replies =>
    obtain ⟨⟨P, hP⟩, hle⟩ := h
    exact ⟨⟨P, hP.grow hm.grows⟩, hle.trans (hm.base_le caller)⟩

/-- **One server moves**, and the invariant holds of what it moved to. -/
theorem Inv.setNode (h : Inv K s S) : Inv K (s.setNode r n') S' where
  coherent := hm.coherent
  elected := hm.elected
  asked := fun b hb => by
    rcases hm.ballots b hb with hb | ⟨-, hle, -⟩
    · exact (h.asked b hb).trans (hm.grows.cur _)
    · exact hle
  nodes := setNode_forall hm.node fun q hqr => by
    obtain ⟨hlog, hcur⟩ := hm.others q hqr
    refine (h.nodes q).grow hm.grows hlog hcur
      (fun t hl => (hm.lead t q hl).resolve_right hqr) fun b hb => ?_
    refine (hm.ballots b hb).imp_right fun ⟨hv, _, hup⟩ => ⟨fun hq => hqr (hq.symm.trans hv), ?_⟩
    rintro rfl ht hr
    exact hup hqr hr ht
  calls := fun c hc => { h.calls c hc with rpc := RpcInv.move hm (h.calls c hc).rpc }
  confirms := fun cf hcf => by
    obtain ⟨hv, P, hP⟩ := h.confirms cf hcf
    exact ⟨hv, P, hP.grow hm.grows⟩
  elections := fun e el hel => (h.elections e el hel).grow hm.grows
  once := h.once
  spawned := h.spawned
  lagging := h.lagging

end Growth

end Cachey.Raft
