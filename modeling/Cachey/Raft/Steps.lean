/-
# Every step of the cluster keeps the invariant

The network and the goroutines around the moves: what happens to the calls, the elections and the
confirmations when one server moves.  The result is `Inv.perform`: an action of a voter, which is
no membership change, keeps the invariant; and what was on record before it still is, so that
commit indices do not go back (`Kept`).
-/
import Cachey.Raft.Leading

namespace Cachey.Raft

open LeaderLog (Coherent Elections Grows)

variable {σ : Type} {K : Cluster σ} {S S' : Abstract} {s s' s'' : ClusterState σ} {r : String}
  {E : Env σ}

def Action.settled : Action → Bool
  | .addServer _ _ _ | .removeServer _ _ => false
  | _ => true

/-! ## 1. What a step keeps -/

/-- The invariant holds of `s'`, with an abstract state that has grown from `S`, and no commit
index has gone back. -/
def Kept (K : Cluster σ) (s : ClusterState σ) (S : Abstract) (s' : ClusterState σ) : Prop :=
  ∃ S', Inv K s' S' ∧ Grows S S' ∧ ∀ r, (s.node r).commitIndex ≤ (s'.node r).commitIndex

theorem Kept.still (h : Inv K s' S) (hn : s'.node = s.node) : Kept K s S s' :=
  ⟨S, h, Grows.refl S, fun _ => by rw [hn]⟩

theorem Moves.kept {n' : Node σ} (hm : Moves K s S S' r n') (h : Inv K s' S')
    (hn : s'.node = (s.setNode r n').node) : Kept K s S s' :=
  ⟨S', h, hm.grows, hn ▸ hm.commit_le⟩

/-! ## 2. Calls, elections, confirmations -/

variable {calls new : List Call} {els : List Election} {c : Call} {k e j i : ℕ} {el : Election}
  {args : RequestVote} {replies : List RequestVoteReply} {node : String → Node σ} {rpc : Rpc}
  {β : Type} {reply : RequestVoteReply}

theorem getElem?_modify_cases {l : List β} {c' : β} {f : β → β} (h : (l.modify k f)[i]? = some c') :
    ∃ c, l[i]? = some c ∧ (c' = c ∧ k ≠ i ∨ c' = f c ∧ k = i) := by
  rw [List.getElem?_modify] at h
  rcases hc : l[i]? with _ | c
  · rw [hc] at h
    cases h
  · rw [hc] at h
    refine ⟨c, rfl, ?_⟩
    by_cases hki : k = i
    · exact Or.inr ⟨by simpa [hki] using h.symm, hki⟩
    · exact Or.inl ⟨by simpa [hki] using h.symm, hki⟩

/-- The votes of an election stay counted as long as no call of it waits that did not before. -/
theorem ElectionInv.withCalls (h : ElectionInv K S s.calls e el)
    (hold : ∀ c' ∈ calls, c'.election = some e → c'.waiting = true →
      ∃ c ∈ s.calls, c.election = some e ∧ c.waiting = true ∧ c.callee = c'.callee) :
    ElectionInv K S calls e el := by
  obtain ⟨hm, hn, hen, granted, hcard, hall⟩ := h
  refine ⟨hm, hn, hen, granted, hcard, fun v hv => ?_⟩
  obtain ⟨h₁, h₂, h₃⟩ := hall v hv
  refine ⟨h₁, h₂, fun c' hc' he hw => ?_⟩
  obtain ⟨c, hc, he, hw, hcc⟩ := hold c' hc' he hw
  exact hcc ▸ h₃ c hc he hw

theorem Inv.withCalls (h : Inv K s S)
    (hrel : ∀ (k : ℕ) (c' : Call), calls[k]? = some c' → ∃ c, s.calls[k]? = some c ∧
      c'.election = c.election ∧ c'.callee = c.callee ∧ (c'.waiting = true → c.waiting = true))
    (hinv : ∀ c ∈ calls, CallInv K S s.node s.elections c) : Inv K { s with calls := calls } S :=
  { h with
    calls := hinv
    elections := fun e el hel => (h.elections e el hel).withCalls fun c' hc' he hw => by
      obtain ⟨k, hk⟩ := List.mem_iff_getElem?.mp hc'
      obtain ⟨c, hc, hel', hcallee, hwait⟩ := hrel k c' hk
      exact ⟨c, List.mem_of_getElem? hc, hel' ▸ he, hwait hw, hcallee.symm⟩
    once := fun k k' c c' hk hk' he hee hcc => by
      obtain ⟨d, hd, hel, hcallee, -⟩ := hrel k c hk
      obtain ⟨d', hd', hel', hcallee', -⟩ := hrel k' c' hk'
      exact h.once k k' d d' hd hd' (hel ▸ he) (by rw [← hel, ← hel', hee])
        (by rw [← hcallee, ← hcallee', hcc]) }

theorem Inv.addCalls (h : Inv K s S) (hinv : ∀ c ∈ new, CallInv K S s.node s.elections c)
    (hfresh : ∀ c ∈ new, c.election = none) : Inv K { s with calls := s.calls ++ new } S :=
  { h with
    calls := fun c hc => (List.mem_append.mp hc).elim (h.calls c) (hinv c)
    elections := fun e el hel => (h.elections e el hel).withCalls fun c hc he hw => by
      rcases List.mem_append.mp hc with hc | hc
      · exact ⟨c, hc, he, hw, rfl⟩
      · exact absurd (he.symm.trans (hfresh c hc)) (by simp)
    once := fun k k' c c' hk hk' he hee hcc => by
      have hold : ∀ (i : ℕ) (d : Call), (s.calls ++ new)[i]? = some d →
          d.election.isSome = true → s.calls[i]? = some d := by
        intro i d hi hd
        rw [List.getElem?_append] at hi
        split at hi
        · exact hi
        · rw [hfresh d (List.mem_of_getElem? hi)] at hd
          cases hd
      exact h.once k k' c c' (hold k c hk he) (hold k' c' hk' (hee ▸ he)) he hee hcc }

theorem Inv.sendAll {callees : List String} (h : Inv K s S) (hr : r ∈ K.voters)
    (hcallees : ∀ p ∈ callees, p ∈ K.voters.erase r)
    (hrpc : ∀ p, RpcInv K S s.node s.elections r p rpc)
    (hno : ∀ p, ({ caller := r, callee := p, rpc := rpc } : Call).election = none) :
    Inv K (s.sendAll r callees rpc) S := by
  refine h.addCalls (fun c hc => ?_) fun c hc => ?_
  · obtain ⟨p, hp, rfl⟩ := List.mem_map.mp hc
    exact ⟨hrpc p, hr, hcallees p hp⟩
  · obtain ⟨p, -, rfl⟩ := List.mem_map.mp hc
    exact hno p

theorem RpcInv.withElections {els' : List Election} {caller callee : String}
    (h : RpcInv K S node els caller callee rpc)
    (hrel : ∀ (e : ℕ) (el : Election), els[e]? = some el → ∃ el', els'[e]? = some el' ∧
      el'.node = el.node ∧ el'.term = el.term) : RpcInv K S node els' caller callee rpc := by
  cases rpc with
  | vote e args replies =>
    obtain ⟨el, hel, hnode, hterm⟩ := h.election
    obtain ⟨el', hel', hn, ht⟩ := hrel e el hel
    exact { h with election := ⟨el', hel', hn.trans hnode, ht.trans hterm⟩ }
  | append k args replies => exact h
  | snapshot args replies => exact h

theorem Inv.modifyElection {f : Election → Election} (h : Inv K s S)
    (hf : ∀ el, (f el).node = el.node ∧ (f el).term = el.term)
    (hinv : ∀ el, s.elections[e]? = some el → ElectionInv K S s.calls e (f el)) :
    Inv K { s with elections := s.elections.modify e f } S := by
  refine { h with
    calls := fun c hc => { h.calls c hc with
      rpc := (h.calls c hc).rpc.withElections fun i x hx => ?_ }
    elections := fun i x hx => ?_ }
  · refine ⟨if e = i then f x else x, by rw [List.getElem?_modify, hx]; rfl, ?_⟩
    split
    · exact hf x
    · exact ⟨rfl, rfl⟩
  · obtain ⟨y, hy, ⟨rfl, -⟩ | ⟨rfl, rfl⟩⟩ := getElem?_modify_cases hx
    · exact h.elections i _ hy
    · exact hinv y hy

theorem Inv.close (h : Inv K s S) (k : ℕ) : Inv K (s.close k) S := by
  refine h.withCalls (fun i c' hc' => ?_) fun c' hc' => ?_
  · obtain ⟨c, hc, ⟨rfl, -⟩ | ⟨rfl, -⟩⟩ := getElem?_modify_cases hc'
    · exact ⟨c', hc, rfl, rfl, id⟩
    · exact ⟨c, hc, rfl, rfl, fun hw => by cases hw⟩
  · obtain ⟨i, hi⟩ := List.mem_iff_getElem?.mp hc'
    obtain ⟨c, hc, ⟨rfl, -⟩ | ⟨rfl, -⟩⟩ := getElem?_modify_cases hi
    · exact h.calls _ (List.mem_of_getElem? hc)
    · exact { h.calls _ (List.mem_of_getElem? hc) with }

theorem Inv.countConfirm {c : ℕ} {f : Confirm → Confirm} (h : Inv K s S)
    (hf : ∀ cf, (f cf).node = cf.node ∧ (f cf).args = cf.args) :
    Inv K { s with confirms := s.confirms.modify c f } S :=
  { h with
    confirms := fun cf hcf => by
      obtain ⟨i, hi⟩ := List.mem_iff_getElem?.mp hcf
      obtain ⟨d, hd, ⟨rfl, -⟩ | ⟨rfl, -⟩⟩ := getElem?_modify_cases hi
      · exact h.confirms _ (List.mem_of_getElem? hd)
      · rw [(hf d).1, (hf d).2]
        exact h.confirms d (List.mem_of_getElem? hd) }

/-! ## 3. Elections -/

theorem Inv.timeout (h : Inv K s S) (hr : r ∈ K.voters) : Kept K s S (s.timeout r) := by
  obtain ⟨S', hm⟩ := Moves.becomeCandidate h hr
  exact hm.kept { h.setNode hm with } rfl

theorem CallInv.voteRequest {p : String} (h : Inv K s S) (hr : r ∈ K.voters)
    (hp : p ∈ K.voters.erase r) (hel : els[e]? = some el) (hnode : el.node = r)
    (hterm : el.term = (s.node r).currentTerm) :
    CallInv K S s.node els
      { caller := r, callee := p, rpc := .vote e (s.node r).voteRequest [] } where
  rpc :=
    have hn := h.nodes r
    { candidate := hn.id
      term_le := hn.term.le
      log := fun _ _ => ⟨hn.sound.holds.lastIndex, hn.sound.holds.lastTerm_eq⟩
      election := ⟨el, hel, hnode, hterm⟩
      votes := fun _ hmem => absurd hmem List.not_mem_nil }
  caller := hr
  callee := hp

theorem Inv.election_lt (h : Inv K s S) (hc : c ∈ s.calls) (he : c.election = some e) :
    e < s.elections.length := by
  have hrpc := (h.calls c hc).rpc
  unfold Call.election at he
  cases hr : c.rpc with
  | vote e' args replies =>
    rw [hr] at he hrpc
    obtain rfl := Option.some.inj he
    obtain ⟨el, hel, -, -⟩ := hrpc.election
    exact (List.getElem?_eq_some_iff.mp hel).1
  | append k args replies =>
    rw [hr] at he
    cases he
  | snapshot args replies =>
    rw [hr] at he
    cases he

theorem Inv.once_campaign (h : Inv K s S) (hr : r ∈ K.voters)
    (hnew : new = (s.node r).peers.map fun p => { caller := r, callee := p
                                                  rpc := .vote s.elections.length args [] })
    (k k' : ℕ) (c c' : Call) (hk : (s.calls ++ new)[k]? = some c)
    (hk' : (s.calls ++ new)[k']? = some c') (he : c.election.isSome = true)
    (hee : c.election = c'.election) (hcc : c.callee = c'.callee) : k = k' := by
  have hnodup : (s.node r).peers.Nodup := (h.nodes r).peers hr ▸ K.nodup.erase r
  have hcase : ∀ (k : ℕ) (c : Call), (s.calls ++ new)[k]? = some c →
      s.calls[k]? = some c ∨ s.calls.length ≤ k ∧ c.election = some s.elections.length ∧
        (s.node r).peers[k - s.calls.length]? = some c.callee := by
    intro k c hk
    rw [List.getElem?_append] at hk
    split at hk
    · exact Or.inl hk
    next hge =>
      rw [hnew, List.getElem?_map] at hk
      obtain ⟨p, hp, rfl⟩ := Option.map_eq_some_iff.mp hk
      exact Or.inr ⟨not_lt.mp hge, rfl, hp⟩
  have hold : ∀ (i : ℕ) (d : Call), s.calls[i]? = some d →
      d.election ≠ some s.elections.length := fun i d hi hd =>
    absurd (h.election_lt (List.mem_of_getElem? hi) hd) (lt_irrefl _)
  rcases hcase k c hk with h₁ | ⟨hge, h₁, hp⟩ <;> rcases hcase k' c' hk' with h₂ | ⟨hge', h₂, hp'⟩
  · exact h.once k k' c c' h₁ h₂ he hee hcc
  · exact absurd (hee.trans h₂) (hold k c h₁)
  · exact absurd (hee.symm.trans h₁) (hold k' c' h₂)
  · rw [← hcc] at hp'
    have := (List.nodup_iff_getElem?_ne_getElem?.mp hnodup)
    rcases lt_trichotomy (k - s.calls.length) (k' - s.calls.length) with hlt | heq | hlt
    · exact absurd (hp.trans hp'.symm) (this _ _ hlt (List.getElem?_eq_some_iff.mp hp').1)
    · omega
    · exact absurd (hp'.trans hp.symm) (this _ _ hlt (List.getElem?_eq_some_iff.mp hp).1)

theorem Inv.newElection {el' : Election} (h : Inv K s S)
    (hnew : ∀ c ∈ new, c.election = some s.elections.length)
    (hel : ElectionInv K S (s.calls ++ new) s.elections.length el)
    (hget : (s.elections ++ [el])[e]? = some el') : ElectionInv K S (s.calls ++ new) e el' := by
  rw [List.getElem?_append] at hget
  split at hget
  next hlt =>
    refine (h.elections e el' hget).withCalls fun c hc he hw => ?_
    rcases List.mem_append.mp hc with hc | hc
    · exact ⟨c, hc, he, hw, rfl⟩
    · have := Option.some.inj ((hnew c hc).symm.trans he)
      omega
  next hge =>
    rcases hi : e - s.elections.length with _ | i
    · rw [hi] at hget
      obtain rfl := Option.some.inj hget
      rwa [show e = s.elections.length by omega]
    · rw [hi] at hget
      cases hget

theorem Inv.campaign (h : Inv K s S) (hr : r ∈ K.voters) : Inv K (s.campaign r) S := by
  have hn := h.nodes r
  unfold ClusterState.campaign
  dsimp only [ClusterState.sendAll]
  generalize hel : ({ node := r, term := (s.node r).currentTerm
                      majority := (s.node r).majorityLocked, promoting := (s.node r).peers.isEmpty
                      alone := (s.node r).peers.isEmpty } : Election) = el
  have hlast : (s.elections ++ [el])[s.elections.length]? = some el := by simp
  refine { h with
    calls := fun c hc => ?_
    elections := fun e el' hel' => h.newElection (fun c hc => ?_) ?_ hel'
    once := h.once_campaign hr rfl }
  · rcases List.mem_append.mp hc with hc | hc
    · refine { h.calls c hc with rpc := (h.calls c hc).rpc.withElections fun e el' hel' => ?_ }
      exact ⟨el', (List.getElem?_append_left (List.getElem?_eq_some_iff.mp hel').1).trans hel',
        rfl, rfl⟩
    · obtain ⟨p, hp, rfl⟩ := List.mem_map.mp hc
      exact CallInv.voteRequest (s := s) h hr (hn.peers hr ▸ hp) hlast (by rw [← hel])
        (by rw [← hel])
  · obtain ⟨p, -, rfl⟩ := List.mem_map.mp hc
    rfl
  · rw [← hel]
    refine ⟨hn.majority hr, hr, fun hempty => ?_, ∅, rfl, fun v hv => absurd hv (by simp)⟩
    dsimp only at hempty ⊢
    unfold Node.majorityLocked
    rw [List.isEmpty_iff.mp hempty]
    decide

theorem Inv.promote (h : Inv K s S) (hel : s.elections[e]? = some el) (hpro : el.promoting = true) :
    Kept K s S (s.promote E e el) := by
  have hinv := h.elections e el hel
  obtain ⟨granted, hcard, hall⟩ := hinv.votes
  have henough := hinv.enough hpro
  have hmaj := hinv.majority
  obtain ⟨S', hm⟩ := Moves.tryBecomeLeader (E := E) (t := el.term) h hinv.node fun _ _ =>
    ⟨granted, by omega, fun v hv => ⟨(hall v hv).1, (hall v hv).2.1⟩⟩
  have hset := h.setNode hm
  have hdone := hset.modifyElection (f := fun el => { el with promoting := false })
    (fun _ => ⟨rfl, rfl⟩) fun x hx => { hset.elections e x hx with enough := fun hp => by cases hp }
  exact hm.kept { hdone with } rfl

/-! ## 4. Requests -/

section Serving

variable (h : Inv K s S) (hk : s.calls[k]? = some c)

include h hk

theorem Inv.answer (hel : ({ c with rpc := rpc } : Call).election = c.election)
    (hrpc : RpcInv K S s.node s.elections c.caller c.callee rpc) :
    Inv K { s with calls := s.calls.set k { c with rpc := rpc } } S := by
  have hcases : ∀ (i : ℕ) (c' : Call), (s.calls.set k { c with rpc := rpc })[i]? = some c' →
      s.calls[i]? = some c' ∨ i = k ∧ c' = { c with rpc := rpc } := by
    intro i c' hi
    rw [List.getElem?_set] at hi
    split at hi
    next heq =>
      split at hi
      · exact Or.inr ⟨heq.symm, (Option.some.inj hi).symm⟩
      · cases hi
    · exact Or.inl hi
  refine h.withCalls (fun i c' hi => ?_) fun c' hc' => ?_
  · rcases hcases i c' hi with hold | ⟨rfl, rfl⟩
    · exact ⟨c', hold, rfl, rfl, id⟩
    · exact ⟨c, hk, hel, rfl, id⟩
  · obtain ⟨i, hi⟩ := List.mem_iff_getElem?.mp hc'
    rcases hcases i c' hi with hold | ⟨rfl, rfl⟩
    · exact h.calls c' (List.mem_of_getElem? hold)
    · exact { h.calls c (List.mem_of_getElem? hk) with rpc := hrpc }

theorem Inv.serve : Kept K s S (s.serve E k c) := by
  obtain ⟨hrpc, hcaller, hcallee⟩ := h.calls c (List.mem_of_getElem? hk)
  have hr := List.mem_of_mem_erase hcallee
  have hne : c.caller ≠ c.callee := fun heq => K.nodup.not_mem_erase (heq ▸ hcallee)
  have hel : ∀ rpc, c.rpc = rpc → c.election = ({ c with rpc := rpc } : Call).election := by
    rintro _ rfl
    rfl
  unfold ClusterState.serve Call.serve
  cases hkind : c.rpc with
  | vote e args replies =>
    rw [hkind] at hrpc
    obtain ⟨S', hm, hgranted⟩ := Moves.handleRequestVote h hr hcaller hne hrpc
    have hmoved := VoteCall.move hm hrpc
    refine hm.kept ((h.setNode hm).answer hk (hel _ hkind).symm { hmoved with
      votes := fun reply hrep hg => ?_ }) rfl
    rcases List.mem_append.mp hrep with hrep | hrep
    · exact hmoved.votes reply hrep hg
    · rw [List.mem_singleton.mp hrep] at hg
      exact hgranted hg
  | append i args replies =>
    rw [hkind] at hrpc
    obtain ⟨P, hP, hacks⟩ := hrpc
    obtain ⟨S', hm, hsuccess⟩ := Moves.handleAppendEntries (E := E) h hP
    refine hm.kept ((h.setNode hm).answer hk (hel _ hkind).symm
      ⟨P, hP.grow hm.grows, fun reply hrep hs => ?_⟩) rfl
    rcases List.mem_append.mp hrep with hrep | hrep
    · exact ⟨(hacks reply hrep hs).1, (hacks reply hrep hs).2.mono hm.grows.acks⟩
    · rw [List.mem_singleton.mp hrep] at hs ⊢
      exact hsuccess hs
  | snapshot args replies =>
    rw [hkind] at hrpc
    obtain ⟨⟨P, hP⟩, hle⟩ := hrpc
    obtain ⟨S', hm⟩ := Moves.handleInstallSnapshot (E := E) h hP
    exact hm.kept ((h.setNode hm).answer hk (hel _ hkind).symm
      ⟨⟨P, hP.grow hm.grows⟩, hle.trans (hm.base_le c.caller)⟩) rfl

end Serving

/-! ## 5. Replies -/

theorem Inv.countVote (h : Inv K s S) (hk : s.calls[k]? = some c)
    (hkind : c.rpc = .vote e args replies) (hw : c.waiting = true) (hrep : reply ∈ replies)
    (hg : reply.voteGranted = true) :
    Inv K { s.close k with elections := s.elections.modify e fun el =>
      { el with votes := el.votes + 1, promoting := el.votes + 1 ≥ el.majority } } S := by
  obtain ⟨hrpc, hcaller, hcallee⟩ := h.calls c (List.mem_of_getElem? hk)
  rw [hkind] at hrpc
  have hce : c.election = some e := by unfold Call.election; rw [hkind]
  refine (h.close k).modifyElection (f := fun el => { el with
    votes := el.votes + 1, promoting := el.votes + 1 ≥ el.majority }) (fun _ => ⟨rfl, rfl⟩)
    fun el (hel : s.elections[e]? = some el) => ?_
  obtain ⟨el', hel', hnode, hterm⟩ := hrpc.election
  obtain rfl : el' = el := Option.some.inj (hel'.symm.trans hel)
  obtain ⟨hmaj, hvoter, -, granted, hcard, hall⟩ := h.elections e el' hel
  have hnew : c.callee ∉ granted := fun hin =>
    (hall _ hin).2.2 c (List.mem_of_getElem? hk) hce hw rfl
  have hclosed : ∀ c' ∈ (s.close k).calls, c'.waiting = true →
      ∃ i, i ≠ k ∧ s.calls[i]? = some c' := by
    intro c' hc' hw'
    obtain ⟨i, hi⟩ := List.mem_iff_getElem?.mp hc'
    obtain ⟨d, hd, ⟨rfl, hne⟩ | ⟨rfl, -⟩⟩ := getElem?_modify_cases hi
    · exact ⟨i, hne.symm, hd⟩
    · cases hw'
  refine ⟨hmaj, hvoter, fun hp => of_decide_eq_true hp, insert c.callee granted, ?_,
    fun v hv => ?_⟩
  · rw [Finset.card_insert_of_notMem hnew, hcard]
  rcases Finset.mem_insert.mp hv with rfl | hv
  · refine ⟨hnode.symm ▸ hcallee, ?_, fun c' hc' he' hw' heq => ?_⟩
    · rw [hnode, hterm]
      exact hrpc.votes reply hrep hg
    · obtain ⟨i, hne, hi⟩ := hclosed c' hc' hw'
      exact hne (h.once i k c' c hi hk (by rw [he']; rfl) (he'.trans hce.symm) heq)
  · obtain ⟨h₁, h₂, h₃⟩ := hall v hv
    refine ⟨h₁, h₂, fun c' hc' he' hw' => ?_⟩
    obtain ⟨i, -, hi⟩ := hclosed c' hc' hw'
    exact h₃ c' (List.mem_of_getElem? hi) he' hw'

section Acting

variable (h : Inv K s S)

include h

theorem Inv.voteReply (hk : s.calls[k]? = some c) (hkind : c.rpc = .vote e args replies)
    (hw : c.waiting = true) (hrep : reply ∈ replies) :
    Kept K s S (s.voteReply k c e args reply) := by
  unfold ClusterState.voteReply Node.onVoteReply
  by_cases hhigh : reply.term > (s.node c.caller).currentTerm
  · rw [if_pos hhigh]
    obtain ⟨S', hm⟩ := Moves.stepDownLocked h hhigh
    exact hm.kept ((h.setNode hm).close k) rfl
  · rw [if_neg hhigh]
    have hm := Moves.refl h c.caller
    dsimp only
    split
    next hcounts =>
      exact hm.kept ((h.setNode hm).countVote hk hkind hw hrep (of_decide_eq_true hcounts).2.2) rfl
    · exact hm.kept ((h.setNode hm).close k) rfl

theorem Inv.heartbeatReply {cf : ℕ} {reply : AppendEntriesReply} :
    Kept K s S (s.heartbeatReply k c cf reply) := by
  obtain ⟨S', hm⟩ : ∃ S', Moves K s S S' c.caller
      ((s.node c.caller).onHeartbeatReply reply).1 := by
    unfold Node.onHeartbeatReply
    split
    next hhigh => exact Moves.stepDownLocked h hhigh
    · exact ⟨S, Moves.refl h c.caller⟩
  exact hm.kept (((h.setNode hm).close k).countConfirm fun _ => ⟨rfl, rfl⟩) rfl

theorem Inv.takeReply (hk : s.calls[k]? = some c) (hw : c.waiting = true) :
    Kept K s S (s.takeReply E k j c) := by
  obtain ⟨hrpc, hr, hp⟩ := h.calls c (List.mem_of_getElem? hk)
  unfold ClusterState.takeReply
  cases hkind : c.rpc with
  | vote e args replies =>
    dsimp only
    split
    · exact Kept.still h rfl
    next reply hrep => exact h.voteReply hk hkind hw (List.mem_of_getElem? hrep)
  | append i args replies =>
    rw [hkind] at hrpc
    obtain ⟨P, hP, hacks⟩ := hrpc
    cases i with
    | none =>
      dsimp only
      split
      · exact Kept.still h rfl
      next reply hrep =>
        obtain ⟨S', hm, hlead⟩ :=
          Moves.hearAppend h hr hp hP (hacks reply (List.mem_of_getElem? hrep))
        have hm := hm.commitIf (E := E) hr hlead
        exact hm.kept ((h.setNode hm).close k) rfl
    | some cf =>
      dsimp only
      split
      · exact Kept.still h rfl
      · exact h.heartbeatReply
  | snapshot args replies =>
    rw [hkind] at hrpc
    dsimp only
    split
    · exact Kept.still h rfl
    next reply hrep =>
      obtain ⟨S', hm, hlead⟩ := Moves.hearSnapshot h hr hp hrpc.2 reply
      have hm := hm.commitIf (E := E) hr hlead
      exact hm.kept ((h.setNode hm).close k) rfl

theorem Inv.fail : Inv K (s.fail k c) S := by
  unfold ClusterState.fail
  split
  · exact (h.close k).countConfirm fun _ => ⟨rfl, rfl⟩
  · exact h.close k

/-! ## 6. The leader's goroutines -/

section Leader

variable (hr : r ∈ K.voters)

include hr

theorem Inv.openConfirm {read : Option ℕ} : Inv K (s.openConfirm r read) S := by
  unfold ClusterState.openConfirm
  split
  · exact h
  next args hargs =>
  split
  · exact h
  refine { h with confirms := fun cf hcf => ?_ }
  rcases List.mem_append.mp hcf with hcf | hcf
  · exact h.confirms cf hcf
  · rw [List.mem_singleton.mp hcf]
    exact ⟨hr, _, AppendOf.heartbeat h hargs⟩

theorem Inv.tick : Inv K (s.tick r) S := by
  unfold ClusterState.tick
  split
  · exact h
  split
  · exact { (h.openConfirm hr : Inv K (s.openConfirm r none) S) with }
  · exact { h with }

theorem Inv.broadcast : Inv K (s.broadcast j r) S := by
  refine { h with spawned := fun p hp => ?_ }
  rcases List.mem_append.mp hp with hp | hp
  · exact h.spawned p hp
  · obtain ⟨q, hq, rfl⟩ := List.mem_map.mp hp
    have hn := h.nodes r
    have hq : q ∈ (s.node r).peers ++ (s.node r).joining := List.mem_dedup.mp hq
    rwa [hn.joining, List.append_nil, hn.peers hr] at hq

theorem Inv.replicate {peer : String} (hget : s.spawned[j]? = some (r, peer))
    (hpanic : s.panics (.replicate j) = false) : Inv K (s.replicate j r peer) S := by
  have hp : peer ∈ K.voters.erase r := h.spawned _ (List.mem_of_getElem? hget)
  have hrest : Inv K { s with spawned := s.spawned.eraseIdx j } S :=
    { h with spawned := fun p hp => h.spawned p (List.mem_of_mem_eraseIdx hp) }
  unfold ClusterState.replicate
  split
  · exact hrest
  · refine { hrest with lagging := fun p hmem => ?_ }
    rcases List.mem_append.mp hmem with hmem | hmem
    · exact h.lagging p hmem
    · rw [List.mem_singleton.mp hmem]
      exact hp
  next args hargs =>
    -- the log is not read beyond its end
    have hnext : (s.node r).nextIndexOf peer ≤ (s.node r).log.lastIndex + 1 := by
      by_contra hlt
      simp only [ClusterState.panics, hget] at hpanic
      unfold Node.replicateTo at hargs
      split at hargs
      · cases hargs
      next hlead =>
      dsimp only at hargs
      split at hargs
      · cases hargs
      next hbase =>
      simp [not_not.mp hlead, not_le.mp hbase, not_le.mp hlt] at hpanic
    exact hrest.sendAll hr (by simpa using hp) (fun _ => ⟨_, AppendOf.replicateTo h hnext hargs,
      fun _ hmem => absurd hmem List.not_mem_nil⟩) fun _ => rfl

theorem Inv.snapshot {peer : String} (hget : s.lagging[j]? = some (r, peer)) :
    Inv K (s.snapshot j r peer) S := by
  have hp : peer ∈ K.voters.erase r := h.lagging _ (List.mem_of_getElem? hget)
  have hrest : Inv K { s with lagging := s.lagging.eraseIdx j } S :=
    { h with lagging := fun p hp => h.lagging p (List.mem_of_mem_eraseIdx hp) }
  unfold ClusterState.snapshot
  split
  · exact hrest
  next args hargs =>
    obtain ⟨hP, hle⟩ := SnapshotCall.sendSnapshot h hargs
    exact hrest.sendAll hr (by simpa using hp) (fun _ => ⟨⟨_, hP⟩, hle⟩) fun _ => rfl

theorem Inv.propose {command : Option Bytes} : Kept K s S (s.propose E r command) := by
  obtain ⟨S', hm⟩ := Moves.propose (E := E) command h hr
  have hset := h.setNode hm
  unfold ClusterState.propose
  rcases hprop : (s.node r).propose E command with ⟨n, err | idx⟩ <;> rw [hprop] at hset hm
  · exact hm.kept hset rfl
  · exact hm.kept { hset with } rfl

end Leader

theorem Inv.resign : Kept K s S (s.resign j r) := by
  have hn := h.nodes r
  have hm : Moves K s S S r (s.node r).resign := Moves.still h
    { hn with
      sound := { hn.sound with }
      candidate := fun hc => by cases hc
      leader := fun hc => by cases hc } (fun hc => by cases hc) rfl rfl
  exact hm.kept { h.setNode hm with } rfl

/-! ## 7. Reads -/

variable {rd : Read} {cf : Confirm}

theorem Inv.setRead {state : ReadState} : Inv K (s.setRead k state) S := { h with }

theorem Inv.confirm (hr : rd.node ∈ K.voters) : Inv K (s.confirm k rd) S := by
  unfold ClusterState.confirm
  split
  · split
    · exact h.setRead
    split
    · exact h.setRead
    · exact (h.openConfirm hr).setRead
  · exact h

theorem Inv.fanOut {c : ℕ} (hmem : cf ∈ s.confirms) : Inv K (s.fanOut c cf) S := by
  obtain ⟨hr, P, hP⟩ := h.confirms cf hmem
  have hcalls : Inv K (s.sendAll cf.node _ (.append (some c) cf.args [])) S :=
    h.sendAll hr (fun p hp => (h.nodes cf.node).peers hr ▸ hp)
      (fun _ => ⟨P, hP, fun _ hmem => absurd hmem List.not_mem_nil⟩) fun _ => rfl
  exact hcalls.countConfirm fun _ => ⟨rfl, rfl⟩

theorem Inv.conclude {c : ℕ} : Inv K (s.conclude c cf) S := by
  unfold ClusterState.conclude
  split
  · exact h
  split
  · split
    · exact h
    split <;> exact h.setRead
  · exact h

theorem Inv.finish : Inv K (s.finish k rd) S := by
  unfold ClusterState.finish
  split
  · exact h.setRead
  · exact h

end Acting

/-! ## 8. All actions -/

theorem exists_of_lt {l : List β} (h : decide (i < l.length) = true) : ∃ x, l[i]? = some x :=
  ⟨_, List.getElem?_eq_getElem (of_decide_eq_true h)⟩

theorem exists_of_any {o : Option β} {p : β → Bool} (h : o.any p = true) :
    ∃ x, o = some x ∧ p x = true := by
  cases o with
  | none => cases h
  | some x => exact ⟨x, rfl, h⟩

/-- The actions that only keep goroutines going. -/
def Action.aside : Action → Bool
  | .tick _ | .broadcast _ | .waitApplied _ | .readIndex _ | .observe _ | .confirm _
  | .conclude _ | .finish _ | .idle _ => true
  | _ => false

/-- The actions in which no server moves. -/
def Action.quiet (a : Action) : Bool :=
  a.aside || match a with
    | .campaign _ | .fail _ | .replicate _ | .snapshot _ | .fanOut _ => true
    | _ => false

namespace ClusterState

theorem openConfirm_aside (read : Option ℕ) :
    (s.openConfirm r read).node = s.node ∧ (s.openConfirm r read).calls = s.calls := by
  unfold openConfirm
  split
  · exact ⟨rfl, rfl⟩
  · split <;> exact ⟨rfl, rfl⟩

theorem perform_aside {a : Action} (ha : a.aside = true) :
    (s.perform E K a).node = s.node ∧ (s.perform E K a).calls = s.calls := by
  have hrefl : s.node = s.node ∧ s.calls = s.calls := ⟨rfl, rfl⟩
  cases a with
  | tick r =>
    simp only [ClusterState.perform, ClusterState.tick]
    split
    · exact hrefl
    split
    · exact openConfirm_aside none
    · exact hrefl
  | broadcast j =>
    simp only [ClusterState.perform]
    split <;> exact hrefl
  | observe k =>
    simp only [ClusterState.perform]
    split <;> exact hrefl
  | confirm k =>
    simp only [ClusterState.perform, ClusterState.confirm]
    split
    · split
      · split
        · exact hrefl
        split
        · exact hrefl
        · exact openConfirm_aside (some k)
      · exact hrefl
    · exact hrefl
  | conclude c =>
    simp only [ClusterState.perform, ClusterState.conclude]
    split
    · split
      · exact hrefl
      split
      · split
        · exact hrefl
        split <;> exact hrefl
      · exact hrefl
    · exact hrefl
  | finish k =>
    simp only [ClusterState.perform, ClusterState.finish]
    split
    · split <;> exact hrefl
    · exact hrefl
  | waitApplied p => exact hrefl
  | readIndex r => exact hrefl
  | idle r => exact hrefl
  | _ => cases ha

theorem perform_quiet {a : Action} (ha : a.quiet = true) : (s.perform E K a).node = s.node := by
  cases a with
  | campaign r => rfl
  | fail k =>
    simp only [ClusterState.perform, ClusterState.fail]
    split
    · split <;> rfl
    · rfl
  | replicate j =>
    simp only [ClusterState.perform, ClusterState.replicate]
    split
    · split <;> rfl
    · rfl
  | snapshot j =>
    simp only [ClusterState.perform, ClusterState.snapshot]
    split
    · split <;> rfl
    · rfl
  | fanOut c =>
    simp only [ClusterState.perform]
    split <;> rfl
  | timeout r | promote e | serve k | reply k j | resign j | propose r c | addServer r i a
  | removeServer r i => cases ha
  | _ => exact (perform_aside rfl).1

end ClusterState

/-- **Every action keeps the invariant**, unless it changes the membership. -/
theorem Inv.perform {a : Action} (h : Inv K s S) (ha : s.actor a ∈ K.voters)
    (hp : s.possible a = true) (hpanic : s.panics a = false) (hset : a.settled = true) :
    Kept K s S (s.perform E K a) := by
  -- where no server moves, the invariant itself is all there is to show
  have hquiet : a.quiet = true → Inv K (s.perform E K a) S → Kept K s S (s.perform E K a) :=
    fun hq hinv => Kept.still hinv (ClusterState.perform_quiet hq)
  cases a with
  | timeout r => exact h.timeout ha
  | campaign r => exact hquiet rfl (h.campaign ha)
  | promote e =>
    obtain ⟨el, hel, hpro⟩ := exists_of_any hp
    simp only [ClusterState.perform, hel]
    exact h.promote hel hpro
  | serve k =>
    obtain ⟨c, hc⟩ := exists_of_lt hp
    simp only [ClusterState.perform, hc]
    exact h.serve hc
  | reply k j =>
    obtain ⟨c, hc, hw⟩ := exists_of_any hp
    simp only [Bool.and_eq_true] at hw
    simp only [ClusterState.perform, hc]
    exact h.takeReply hc hw.1.1
  | fail k =>
    obtain ⟨c, hc, -⟩ := exists_of_any hp
    exact hquiet rfl (by simpa only [ClusterState.perform, hc] using h.fail)
  | tick r => exact hquiet rfl (h.tick ha)
  | broadcast j =>
    obtain ⟨r, hr⟩ := exists_of_lt hp
    simp only [ClusterState.actor, hr] at ha
    exact hquiet rfl (by simpa only [ClusterState.perform, hr] using h.broadcast (r := r) ha)
  | replicate j =>
    obtain ⟨⟨r, peer⟩, hr⟩ := exists_of_lt hp
    simp only [ClusterState.actor, hr] at ha
    exact hquiet rfl (by
      simpa only [ClusterState.perform, hr] using h.replicate (r := r) ha hr hpanic)
  | snapshot j =>
    obtain ⟨⟨r, peer⟩, hr⟩ := exists_of_lt hp
    simp only [ClusterState.actor, hr] at ha
    exact hquiet rfl (by simpa only [ClusterState.perform, hr] using h.snapshot (r := r) ha hr)
  | resign j =>
    obtain ⟨r, hr⟩ := exists_of_lt hp
    simp only [ClusterState.perform, hr]
    exact h.resign
  | propose r command => exact h.propose ha
  | addServer r id addr => cases hset
  | removeServer r id => cases hset
  | observe k =>
    obtain ⟨rd, hrd, -⟩ := exists_of_any hp
    exact hquiet rfl (by simpa only [ClusterState.perform, hrd] using h.setRead)
  | confirm k =>
    obtain ⟨rd, hrd, -⟩ := exists_of_any hp
    simp only [ClusterState.actor, hrd] at ha
    exact hquiet rfl (by simpa only [ClusterState.perform, hrd] using h.confirm ha)
  | fanOut c =>
    obtain ⟨cf, hcf, -⟩ := exists_of_any hp
    exact hquiet rfl (by
      simpa only [ClusterState.perform, hcf] using h.fanOut (List.mem_of_getElem? hcf))
  | conclude c =>
    obtain ⟨cf, hcf, -⟩ := exists_of_any hp
    exact hquiet rfl (by simpa only [ClusterState.perform, hcf] using h.conclude)
  | finish k =>
    obtain ⟨rd, hrd, -⟩ := exists_of_any hp
    exact hquiet rfl (by simpa only [ClusterState.perform, hrd] using h.finish)
  | waitApplied p | readIndex r | idle r => exact hquiet rfl { h with }

/-! ## 9. Steps and starts -/

theorem arm_node (s : ClusterState σ) (l : Label) (q : String) :
    ∃ writes saves, (s.arm l).node q = { s.node q with writes := writes, saves := saves } := by
  by_cases hq : q = s.actor l.action
  · exact ⟨_, _, if_pos hq⟩
  · exact ⟨_, _, if_neg hq⟩

theorem Inv.arm {l : Label} (h : Inv K s S) : Inv K (s.arm l) S :=
  { h with
    nodes := fun q => by
      obtain ⟨_, _, heq⟩ := arm_node s l q
      rw [heq]
      have hn := h.nodes q
      exact { hn with
        sound := { hn.sound with }
        leader := fun hr => { hn.leader hr with } }
    calls := fun c hc => by
      obtain ⟨_, _, heq⟩ := arm_node s l c.caller
      obtain ⟨hrpc, hcaller, hcallee⟩ := h.calls c hc
      refine ⟨?_, hcaller, hcallee⟩
      revert hrpc
      cases c.rpc with
      | vote e args replies =>
        exact fun hv => { hv with log := fun hr => hv.log (by rwa [heq] at hr) }
      | append k args replies => exact id
      | snapshot args replies => exact fun hs => ⟨hs.1, by rw [heq]; exact hs.2⟩ }

/-- **The invariant holds at the start**, with nothing having happened in the abstract. -/
theorem Inv.start : Inv K K.start LeaderLog.State.init where
  coherent := Coherent.init
  elected := Elections.init
  asked := fun _ hb => absurd hb List.not_mem_nil
  nodes := fun r =>
    { id := rfl
      peers := fun hr => if_pos hr
      joining := rfl
      term := rfl
      sound := ⟨Log.Shows.new, le_rfl, le_rfl, le_rfl, fun _ he => absurd he List.not_mem_nil⟩
      settled := rfl
      vote := fun c => ⟨fun ⟨_, hb, _⟩ => absurd hb List.not_mem_nil, fun hv => absurd hv.1.symm hv.2⟩
      candidate := fun hc => by cases hc
      leader := fun hc => by cases hc
      secured := Or.inl rfl
      applied := fun _ hx => absurd hx List.not_mem_nil
      truncated := fun _ hx => absurd hx List.not_mem_nil
      snapshot := fun _ hs => by cases hs
      keys := fun _ _ hm => by cases hm }
  calls := fun _ hc => absurd hc List.not_mem_nil
  confirms := fun _ hc => absurd hc List.not_mem_nil
  elections := fun _ _ hel => by cases hel
  once := fun _ _ _ _ hk => by cases hk
  spawned := fun _ hp => absurd hp List.not_mem_nil
  lagging := fun _ hp => absurd hp List.not_mem_nil

end Cachey.Raft
