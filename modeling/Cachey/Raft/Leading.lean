/-
# Leading: election, proposals, and what a leader sends and hears

The leader's half of the moves: `tryBecomeLeader` is `elect`, `appendEntryLocked` is `extend`,
and a reply changes what the leader knows about its peers.  Each of these functions ends in
`updateCommitIndexLocked`; the part before it is a move of its own (`takeOffice`, `addEntry`,
`hearAppend`, `hearSnapshot`).

What a leader sends is described by `AppendOf` and `SnapshotCall`: an AppendEntries always carries
the log up to its END, whose last entry is of the leader's own term.
-/
import Cachey.Raft.Moves

namespace Cachey.Raft

open LeaderLog (Elections Acked UpToDate Grows)

variable {σ : Type} {K : Cluster σ} {S S' : Abstract} {s : ClusterState σ} {r p : String}
  {n : Node σ} {E : Env σ} {m t : ℕ} {args : AppendEntries}

/-! ## 1. A new entry of the leader -/

theorem NodeInv.append (e : Entry) (nx mx : GoMap String ℕ) (l : String) (k : ℕ)
    (h : NodeInv K S r n) (hg : Grows S S') (hballots : S'.ballots = S.ballots)
    (hlog : S'.log r = S.log r ++ [e]) (hcur : S'.cur r = S.cur r)
    (hlead : S'.lead (S.cur r) = some r) (hack : (r, S.log r ++ [e]) ∈ S'.acks)
    (hterm : e.term = S.cur r) (hplain : e.config = none)
    (hmatched : ∀ p m, mx.lookup p = some m → Matched S r n p m)
    (hkeys : ∀ p m, mx.lookup p = some m → p ∈ n.peers)
    (hnext : ∀ p ∈ n.peers, (nx.lookup p).getD 0 ≤ (S.log r).length + 1) :
    NodeInv K S' r { n with
      role := .leader, leaderID := l, noopIndex := k, nextIndex := nx, matchIndex := mx
      log := n.log.append e } := by
  have hs := h.sound
  have hlen : (S'.log r).length = (S.log r).length + 1 := by rw [hlog, List.length_append]; rfl
  have htake : ∀ i, i ≤ (S.log r).length → (S'.log r).take i = (S.log r).take i := by
    intro i hi
    rw [hlog, List.take_append_of_le_length hi]
  refine { h with
    term := h.term.trans hcur.symm
    sound := ⟨hlog ▸ hs.holds.append e, hs.base_le, hs.applied_le, hs.commit_le.trans (by omega), ?_⟩
    vote := by
      unfold Voted
      rw [hballots, hcur]
      exact h.vote
    candidate := fun hr => by cases hr
    leader := fun _ => ⟨hcur.symm ▸ hlead, ?_, ?_, fun p m hm => ?_, fun p hp => ?_⟩
    secured := ?_
    applied := h.applied_grow hg
    snapshot := fun snap hsnap => ?_
    keys := hkeys }
  · rw [hlog]
    exact List.forall_mem_append.mpr ⟨hs.plain, by simpa using hplain⟩
  · rw [hlog]
    exact ⟨by simp, _, hack, List.prefix_rfl, rfl⟩
  · rw [hlog, hcur, endTerm_concat, hterm]
  · refine (hmatched p m hm).imp_right fun ⟨hle, ha⟩ => ⟨by omega, ?_⟩
    rw [htake m hle]
    exact ha.mono hg.acks
  · exact (hnext p hp).trans (by omega)
  · rw [hcur]
    rw [htake _ hs.commit_le]
    exact h.secured.mono le_rfl hg.acks
  · obtain ⟨hstore, hle, ht⟩ := h.snapshot snap hsnap
    have hin := (hle.trans (hs.base_le.trans hs.applied_le)).trans hs.commit_le
    exact ⟨hstore, hle, by rw [htake _ hin]; exact ht⟩

/-! ## 2. Winning an election -/

@[simp] theorem elect_log_self (S : Abstract) (r : String) (e : Entry) :
    (S.elect r e).log r = S.log r ++ [e] := Function.update_self ..

@[simp] theorem extend_log_self (S : Abstract) (r : String) (e : Entry) :
    (S.extend r e).log r = S.log r ++ [e] := Function.update_self ..

/-- A candidate with a majority of votes behind it. -/
def Won (K : Cluster σ) (S : Abstract) (r : String) (t : ℕ) : Prop :=
  ∃ granted : Finset String, K.voters.length / 2 + 1 ≤ granted.card + 1 ∧
    ∀ v ∈ granted, v ∈ K.voters.erase r ∧ Voted S v t r

/-- The votes of a winner, its own included: a majority, and no voter had a better log. -/
theorem Won.quorum (h : Won K S r (S.cur r)) (hn : NodeInv K S r n) (hr : r ∈ K.voters)
    (hcand : n.role = .candidate) :
    ∃ Q ⊆ K.quorumBase, K.quorumBase.card < 2 * Q.card ∧ ∀ v ∈ Q, ∃ b ∈ S.ballots,
      b.voter = v ∧ b.term = S.cur r ∧ b.cand = r ∧ UpToDate Entry.term (S.log r) b.log := by
  obtain ⟨granted, hcard, hall⟩ := h
  obtain ⟨-, hself, hup⟩ := hn.candidate hcand
  have hnot : r ∉ granted := fun hmem => K.nodup.not_mem_erase (hall r hmem).1
  have hvoted : ∀ v ∈ insert r granted, Voted S v (S.cur r) r := by
    intro v hmem
    rcases Finset.mem_insert.mp hmem with rfl | hmem
    · exact (hn.vote v).mpr ⟨hself, fun h0 => K.named (h0 ▸ hr)⟩
    · exact (hall v hmem).2
  refine ⟨insert r granted, fun v hmem => ?_, ?_, fun v hmem => ?_⟩
  · rcases Finset.mem_insert.mp hmem with rfl | hmem
    · exact Cluster.mem_quorumBase.mpr hr
    · exact Cluster.mem_quorumBase.mpr (List.mem_of_mem_erase (hall v hmem).1)
  · rw [Finset.card_insert_of_notMem hnot, K.card_quorumBase]
    omega
  · obtain ⟨b, hb, h₁, h₂, h₃⟩ := hvoted v hmem
    exact ⟨b, hb, h₁, h₂, h₃, hup b hb h₃ h₂⟩

theorem Won.unled (h : Won K S r (S.cur r)) (he : Elections Entry.term K.quorumBase S)
    (hn : NodeInv K S r n) (hr : r ∈ K.voters) (hcand : n.role = .candidate) :
    S.lead (S.cur r) = none := by
  rcases hl : S.lead (S.cur r) with _ | c
  · rfl
  · obtain ⟨Q, hQ, hmaj, hall⟩ := h.quorum hn hr hcand
    have hc : c = r := he.unique hl hQ hmaj fun v hv => by
      obtain ⟨b, hb, h₁, h₂, h₃, -⟩ := hall v hv
      exact ⟨b, hb, h₁, h₂, h₃⟩
    exact absurd (hc ▸ hl) (hn.candidate hcand).1

theorem Moves.takeOffice (h : Inv K s S) (hr : r ∈ K.voters)
    (hwon : (s.node r).role = .candidate → (s.node r).currentTerm = t → Won K S r t) :
    ∃ S', Moves K s S S' r ((s.node r).takeOffice E t).1 ∧
      (((s.node r).takeOffice E t).2 = true → ((s.node r).takeOffice E t).1.role = .leader) := by
  have hn := h.nodes r
  have hstill := Moves.refl h r
  unfold Node.takeOffice
  split
  · exact ⟨S, hstill, fun hno => by cases hno⟩
  next hnot =>
  obtain ⟨hcand, hterm⟩ : (s.node r).role = .candidate ∧ (s.node r).currentTerm = t := by
    simpa [not_or] using hnot
  have hlogged := Node.persistEntryLocked_logged E ((s.node r).log.lastIndex + 1)
    { term := t } (s.node r)
  dsimp only
  rcases hpersist : (s.node r).persistEntryLocked E ((s.node r).log.lastIndex + 1)
    { term := t } with ⟨n₁, _ | _⟩ <;> rw [hpersist] at hlogged
  · exact ⟨S, hstill.logged hlogged, fun hno => by cases hno⟩
  have hm := hstill.logged hlogged
  obtain ⟨wal, writes, rfl⟩ := hlogged
  dsimp only
  -- the abstract election
  obtain rfl : S.cur r = t := hn.term.symm.trans hterm
  have hwon := hwon hcand hterm
  have hunled := hwon.unled h.elected hn hr hcand
  have hnil := h.coherent.unled _ hunled
  have hgrow : Grows S (S.elect r { term := S.cur r }) := Grows.elect _ hunled hnil
  refine ⟨S.elect r { term := S.cur r }, ⟨h.coherent.elect rfl hunled,
    h.elected.elect rfl hunled hnil (hwon.quorum hn hr hcand), hgrow, ?_,
    fun q hq => ⟨Function.update_of_ne hq .., rfl⟩, fun t' q hl => ?_, fun b hb => Or.inl hb,
    (fun hrole => by cases hrole), le_rfl, le_rfl⟩, fun _ => rfl⟩
  · refine hm.node.append _ _ _ _ _ hgrow rfl (elect_log_self S r _) rfl (Function.update_self ..)
      List.mem_cons_self rfl rfl (fun p m hpm => Or.inl ?_) (fun p m hpm => ?_) fun p hp => ?_
    · rw [GoMap.lookup_foldl_insert] at hpm
      split at hpm
      · exact (Option.some.inj hpm).symm ▸ Nat.zero_le _
      next hp => exact absurd (hn.keys p m hpm) hp
    · rw [GoMap.lookup_foldl_insert] at hpm
      split at hpm
      · assumption
      · exact hn.keys p m hpm
    · rw [GoMap.lookup_foldl_insert, if_pos hp]
      exact le_of_eq (congrArg (· + 1) hn.sound.holds.lastIndex)
  · by_cases ht' : t' = S.cur r
    · rw [ht'] at hl
      exact Or.inr (Option.some.inj (hl.symm.trans (Function.update_self ..)))
    · exact Or.inl ((Function.update_of_ne ht' ..).symm.trans hl)

theorem Moves.tryBecomeLeader (h : Inv K s S) (hr : r ∈ K.voters)
    (hwon : (s.node r).role = .candidate → (s.node r).currentTerm = t → Won K S r t) :
    ∃ S', Moves K s S S' r ((s.node r).tryBecomeLeader E t).1 := by
  obtain ⟨S', hm, hlead⟩ := Moves.takeOffice (E := E) h hr hwon
  unfold Node.tryBecomeLeader
  split
  · exact ⟨S, Moves.refl h r⟩
  rcases hres : (s.node r).takeOffice E t with ⟨n₁, _ | _⟩ <;> rw [hres] at hm hlead
  · exact ⟨S', hm⟩
  · exact ⟨S', hm.updateCommitIndexLocked hr (hlead rfl)⟩

/-! ## 3. Proposals -/

theorem Moves.addEntry {e : Entry} (h : Inv K s S) (hlead : (s.node r).role = .leader)
    (hterm : e.term = (s.node r).currentTerm) (hplain : e.config = none) :
    ∃ S', Moves K s S S' r ((s.node r).addEntry E e).1 ∧
      ((s.node r).addEntry E e).1.role = .leader := by
  have hlogged := Node.persistEntryLocked_logged E ((s.node r).log.lastIndex + 1) e (s.node r)
  unfold Node.addEntry
  rcases hpersist : (s.node r).persistEntryLocked E ((s.node r).log.lastIndex + 1) e with
    ⟨n₁, _ | _⟩ <;> rw [hpersist] at hlogged
  · refine ⟨S, (Moves.refl h r).logged hlogged, ?_⟩
    obtain ⟨_, _, rfl⟩ := hlogged
    exact hlead
  have hm := (Moves.refl h r).logged hlogged
  obtain ⟨wal, writes, rfl⟩ := hlogged
  dsimp only
  -- the abstract line grows
  have hl := hm.node.leader hlead
  have heterm : e.term = S.cur r := hterm.trans (h.nodes r).term
  have hline := (h.coherent.leader _ r hl.leads).2 rfl
  have hgrow : Grows S (S.extend r e) := Grows.extend _ (hline ▸ List.prefix_rfl)
  refine ⟨S.extend r e, ⟨h.coherent.extend heterm hl.leads,
    h.elected.extend h.coherent heterm hl.leads, hgrow, ?_,
    fun q hq => ⟨Function.update_of_ne hq .., rfl⟩, fun _ _ hl => Or.inl hl, fun b hb => Or.inl hb,
    fun hrole => absurd (hlead.symm.trans hrole) (by decide), le_rfl, le_rfl⟩, hlead⟩
  have hnode := hm.node.append e _ _ (s.node r).leaderID (s.node r).noopIndex hgrow rfl
    (extend_log_self S r _) rfl hl.leads List.mem_cons_self heterm hplain hl.matched hm.node.keys
    hl.next
  rw [← hlead] at hnode
  exact hnode

theorem Moves.propose (command : Option Bytes) (h : Inv K s S) (hr : r ∈ K.voters) :
    ∃ S', Moves K s S S' r ((s.node r).propose E command).1 := by
  unfold Node.propose Node.submit
  rcases hres : (s.node r).proposed command with err | ⟨n, e⟩
  · exact ⟨S, Moves.refl h r⟩
  obtain ⟨hlead, heq⟩ := Node.proposed_ok hres
  cases heq
  obtain ⟨S', hadd, hrole⟩ := Moves.addEntry (E := E)
    (e := { term := (s.node r).currentTerm, command := command }) h hlead rfl rfl
  unfold Node.appendEntryLocked
  dsimp only
  rcases hentry : (s.node r).addEntry E { term := (s.node r).currentTerm, command := command } with
    ⟨n₁, _ | _⟩ <;> rw [hentry] at hadd hrole
  · exact ⟨S', hadd⟩
  · exact ⟨S', hadd.updateCommitIndexLocked hr hrole⟩

/-! ## 4. Replies -/

theorem Moves.commitIf {x : Node σ × Bool} (h : Moves K s S S' r x.1) (hr : r ∈ K.voters)
    (hlead : x.2 = true → x.1.role = .leader) : Moves K s S S' r (Node.commitIf E x) := by
  rcases x with ⟨n, _ | _⟩
  · exact h
  · exact h.updateCommitIndexLocked hr (hlead rfl)

section Hearing

variable (h : Inv K s S) (hr : r ∈ K.voters) (hp : p ∈ K.voters.erase r)

include h hr hp

theorem Moves.setMatch (hlead : (s.node r).role = .leader) (hm : Matched S r (s.node r) p m) :
    Moves K s S S r ((s.node r).setMatch p m) := by
  have hn := h.nodes r
  have hle : m ≤ (S.log r).length := hm.elim (fun hc => hc.trans hn.sound.commit_le) And.left
  have hl := hn.leader hlead
  have hpeer : p ∈ (s.node r).peers := hn.peers hr ▸ hp
  -- the new key and its value, or an old one
  have hmatch : ∀ q v, ((s.node r).setMatch p m).matchIndex.lookup q = some v →
      q = p ∧ v = m ∨ (s.node r).matchIndex.lookup q = some v := by
    intro q v hq
    change (AList.insert p m (s.node r).matchIndex).lookup q = some v at hq
    rw [GoMap.lookup_insert_of] at hq
    split at hq
    next heq => exact Or.inl ⟨heq, (Option.some.inj hq).symm⟩
    · exact Or.inr hq
  refine Moves.still h { hn with
    sound := { hn.sound with }
    leader := fun _ => { hl with matched := fun q v hq => ?_, next := fun q hq => ?_ }
    keys := fun q v hq => ?_ } id rfl rfl
  · rcases hmatch q v hq with ⟨rfl, rfl⟩ | hq
    · exact hm
    · exact hl.matched q v hq
  · have := hl.next q hq
    change ((AList.insert p (m + 1) (s.node r).nextIndex).lookup q).getD 0 ≤ _
    rw [GoMap.lookup_insert_of]
    split
    · exact Nat.succ_le_succ hle
    · exact this
  · rcases hmatch q v hq with ⟨rfl, rfl⟩ | hq
    · exact hpeer
    · exact hn.keys q v hq

theorem Moves.backUp (hlead : (s.node r).role = .leader) :
    Moves K s S S r { s.node r with
      nextIndex := (s.node r).nextIndex.insert p ((s.node r).nextIndexOf p - 1) } := by
  have hn := h.nodes r
  have hl := hn.leader hlead
  refine Moves.still h { hn with
    sound := { hn.sound with }
    leader := fun _ => { hl with next := fun q hq => ?_ } } id rfl rfl
  have h₁ := hl.next q hq
  have h₂ := hl.next p (hn.peers hr ▸ hp)
  unfold Node.nextIndexOf at h₁ h₂ ⊢
  rw [GoMap.lookup_insert_of]
  split
  · exact (Nat.sub_le _ _).trans h₂
  · exact h₁

theorem Moves.hearAppend {reply : AppendEntriesReply} {P : List Entry} (hP : AppendOf K S r args P)
    (hack : reply.success = true → reply.term ≤ args.term ∧ Acked Entry.term S p P) :
    ∃ S', Moves K s S S' r ((s.node r).hearAppend p args reply).1 ∧
      (((s.node r).hearAppend p args reply).2 = true →
        ((s.node r).hearAppend p args reply).1.role = .leader) := by
  have hn := h.nodes r
  have hterm := hn.term
  unfold Node.hearAppend
  split
  next hhigh =>
    obtain ⟨S', hm⟩ := Moves.stepDownLocked h hhigh
    exact ⟨S', hm, fun hno => by cases hno⟩
  split
  · exact ⟨S, Moves.refl h r, fun hno => by cases hno⟩
  next hlow hnot =>
  have hlead : (s.node r).role = .leader := not_not.mp fun hne => hnot (Or.inl hne)
  split
  next hok =>
    obtain ⟨hle, hacked⟩ := hack hok
    -- the reply is one of this very leadership
    have hargs : args.term = S.cur r := by
      have := (h.coherent.leader _ r hP.lead).1
      omega
    have hlog : S.log r = S.line (S.cur r) :=
      (h.coherent.leader _ r (hn.leader hlead).leads).2 rfl
    have hpre : P <+: S.log r := hlog ▸ hargs ▸ hP.line
    have hlen : args.prevLogIndex + args.entries.length = P.length := by
      have := hP.prev_le
      rw [hP.entries, List.length_drop]
      omega
    rw [hlen]
    dsimp only
    split
    · exact ⟨S, Moves.setMatch h hr hp hlead
        (Or.inr ⟨hpre.length_le, (List.prefix_iff_eq_take.mp hpre) ▸ hacked⟩), fun _ => hlead⟩
    · exact ⟨S, Moves.refl h r, fun _ => hlead⟩
  next =>
    split
    · exact ⟨S, Moves.backUp h hr hp hlead, fun hno => by cases hno⟩
    · exact ⟨S, Moves.refl h r, fun hno => by cases hno⟩

/-- What a reply to InstallSnapshot tells the leader is a move: the match index it sets is
committed. -/
theorem Moves.hearSnapshot {args : InstallSnapshot}
    (hle : args.lastIncludedIndex ≤ (s.node r).log.base) (reply : InstallSnapshotReply) :
    ∃ S', Moves K s S S' r ((s.node r).hearSnapshot p args reply).1 ∧
      (((s.node r).hearSnapshot p args reply).2 = true →
        ((s.node r).hearSnapshot p args reply).1.role = .leader) := by
  have hs := (h.nodes r).sound
  unfold Node.hearSnapshot
  split
  next hhigh =>
    obtain ⟨S', hm⟩ := Moves.stepDownLocked h hhigh
    exact ⟨S', hm, fun hno => by cases hno⟩
  split
  · exact ⟨S, Moves.refl h r, fun hno => by cases hno⟩
  next hnot =>
  have hlead : (s.node r).role = .leader := not_not.mp fun hne => hnot (Or.inl hne)
  split
  · exact ⟨S, Moves.setMatch h hr hp hlead (Or.inl (hle.trans (hs.base_le.trans hs.applied_le))),
      fun _ => hlead⟩
  · exact ⟨S, Moves.refl h r, fun _ => hlead⟩

end Hearing

/-! ## 5. What is sent -/

/-- The common part of what a leader sends: its term, its line, and its own commit index, up to
which its log is secured. -/
theorem AppendOf.of_leader (h : Inv K s S) (hlead : (s.node r).role = .leader)
    (hterm : args.term = (s.node r).currentTerm) (hprev : args.prevLogIndex ≤ (S.log r).length)
    (hpt : args.prevLogTerm = endTerm ((S.log r).take args.prevLogIndex))
    (hes : args.entries = (S.log r).drop args.prevLogIndex)
    (hcommit : args.leaderCommit = (s.node r).commitIndex) : AppendOf K S r args (S.log r) := by
  have hn := h.nodes r
  have hcur : args.term = S.cur r := hterm.trans hn.term
  obtain ⟨hleads, hacked, hlast, -, -⟩ := hn.leader hlead
  refine ⟨hcur ▸ hleads, ?_, hacked.1, hlast.trans hcur.symm, hprev, hpt, hes, hn.sound.plain,
    hcommit ▸ hn.sound.commit_le, ?_⟩
  · rw [hcur, ← (h.coherent.leader _ r hleads).2 rfl]
  · rw [hcur, hcommit]
    exact hn.secured

theorem AppendOf.replicateTo (h : Inv K s S)
    (hnext : (s.node r).nextIndexOf p ≤ (s.node r).log.lastIndex + 1)
    (heq : (s.node r).replicateTo p = .append args) : AppendOf K S r args (S.log r) := by
  have hholds := (h.nodes r).sound.holds
  rw [hholds.lastIndex] at hnext
  unfold Node.replicateTo at heq
  split at heq
  · cases heq
  next hlead =>
  dsimp only at heq
  split at heq
  · cases heq
  next hbase =>
  have hbase : (s.node r).log.base < (s.node r).nextIndexOf p := not_le.mp hbase
  injection heq with heq
  subst heq
  refine AppendOf.of_leader h (not_not.mp hlead) rfl ?_ ?_ ?_ rfl
  · dsimp only
    omega
  · exact hholds.termAt (by omega) (by omega)
  · exact hholds.slice hbase

theorem AppendOf.heartbeat (h : Inv K s S) (heq : (s.node r).heartbeat = some args) :
    AppendOf K S r args (S.log r) := by
  have hholds := (h.nodes r).sound.holds
  unfold Node.heartbeat at heq
  split at heq
  · cases heq
  next hlead =>
  injection heq with heq
  subst heq
  refine AppendOf.of_leader h (not_not.mp hlead) rfl ?_ ?_ ?_ rfl
  · exact le_of_eq hholds.lastIndex
  · rw [hholds.lastIndex, List.take_length, hholds.lastTerm_eq]
  · rw [hholds.lastIndex, List.drop_length]

theorem SnapshotCall.sendSnapshot {args : InstallSnapshot} (h : Inv K s S)
    (heq : (s.node r).sendSnapshot = some args) :
    SnapshotCall K S r args ((S.log r).take args.lastIncludedIndex) ∧
      args.lastIncludedIndex ≤ (s.node r).log.base := by
  have hn := h.nodes r
  unfold Node.sendSnapshot at heq
  split at heq
  · cases heq
  next hnot =>
  have hlead : (s.node r).role = .leader := not_not.mp fun hne => hnot (Or.inl hne)
  obtain ⟨snap, hsnap, hargs⟩ := Option.map_eq_some_iff.mp heq
  subst hargs
  obtain ⟨-, hle, hterm⟩ := hn.snapshot snap hsnap
  have hcommit := hle.trans (hn.sound.base_le.trans hn.sound.applied_le)
  have hleads := (hn.leader hlead).leads
  refine ⟨⟨hn.term ▸ hleads, ?_, ?_, hterm, ?_, ?_⟩, hle⟩
  · rw [hn.term, ← (h.coherent.leader _ r hleads).2 rfl]
    exact List.take_prefix _ _
  · exact (List.length_take_of_le (hcommit.trans hn.sound.commit_le)).symm
  · exact fun e he => hn.sound.plain e (List.mem_of_mem_take he)
  · rw [hn.term]
    exact hn.secured.of_initial (List.take_prefix_take_left hcommit)

end Cachey.Raft
