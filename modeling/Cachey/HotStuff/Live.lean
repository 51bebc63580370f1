/-
# A cluster of fixed membership, with garbage collections

The correct replicas act in any order and on any message (`Label`), and a garbage collection may
come between any two calls (`Turn`).  No membership command is ever proposed or carried by a block.

* §1  The machine, and how to prove something of every replica.
* §2  Every replica stays in epoch 0 with the set it was started with, and what a correct replica
      signs a vote for is a digest of the height in the vote (`Tame`).
-/
import Cachey.HotStuff.Provenance

namespace Cachey.HotStuff

namespace ClusterState

/-! ## 1. Turns -/

/-- The replica the actor's handler starts from. -/
def ready (s : ClusterState) (l : Label) : Replica :=
  { s.replica l.actor with out := [], writes := l.writes }

def turn (E : Env) (s : ClusterState) : Turn → ClusterState
  | .step l => s.act E l
  | .collect r => { s with
      replica := fun x => if x = r then (s.replica r).gcLocked.1 else s.replica x }

def Able (E : Env) (K : Cluster) (s : ClusterState) : Turn → Prop
  | .step l => s.Enabled E K l
  | .collect r => K.Correct r ∧ (s.replica r).panicked = false

abbrev live (E : Env) (K : Cluster) : Machine ClusterState Turn where
  enabled := fun s t => s.Able E K t
  act := fun s t => s.turn E t

instance (E : Env) (K : Cluster) (s : ClusterState) (t : Turn) : Decidable (s.Able E K t) :=
  match t with
  | .step l => inferInstanceAs (Decidable (s.Enabled E K l))
  | .collect r => inferInstanceAs (Decidable (K.Correct r ∧ (s.replica r).panicked = false))

variable {E : Env} {K : Cluster} {s : ClusterState} {t : Turn} {e : Effect} {l : Label}

/-- **What a call and a collection keep, every replica keeps.** -/
theorem turn_replica {P : String → Replica → Prop} (hen : s.Able E K t)
    (h : ∀ r, K.Correct r → P r (s.replica r))
    (hstep : ∀ l, t = .step l → P l.actor ((s.ready l).handle E l.ctx l.input))
    (hgc : ∀ r, t = .collect r → P r (s.replica r).gcLocked.1) :
    ∀ r, K.Correct r → P r ((s.turn E t).replica r) := by
  intro r hr
  cases t with
  | step l =>
    change P r (if r = l.actor then _ else s.replica r)
    by_cases heq : r = l.actor
    · subst heq
      rw [if_pos rfl]
      exact hstep l rfl
    · rw [if_neg heq]
      exact h r hr
  | collect r' =>
    change P r (if r = r' then _ else s.replica r)
    by_cases heq : r = r'
    · subst heq
      rw [if_pos rfl]
      exact hgc r rfl
    · rw [if_neg heq]
      exact h r hr

theorem turn_trace (t : Turn) (s : ClusterState) : ∀ x ∈ s.trace, x ∈ (s.turn E t).trace := by
  intro x hx
  cases t with
  | step l => exact List.mem_append_right _ hx
  | collect r => exact hx

theorem mem_turn_trace {i : String} (h : (i, e) ∈ (s.turn E t).trace) :
    (i, e) ∈ s.trace ∨ ∃ l, t = .step l ∧ i = l.actor ∧
      e ∈ ((s.ready l).handle E l.ctx l.input).out := by
  cases t with
  | step l =>
    rcases List.mem_append.mp h with h | h
    · obtain ⟨x, hx, heq⟩ := List.mem_map.mp h
      obtain ⟨rfl, rfl⟩ := Prod.mk.inj heq
      exact Or.inr ⟨l, rfl, rfl, hx⟩
    · exact Or.inl h
  | collect r => exact Or.inl h

theorem mem_trace_of_out (h : e ∈ ((s.ready l).handle E l.ctx l.input).out) :
    (l.actor, e) ∈ (s.turn E (.step l)).trace :=
  List.mem_append_left _ (List.mem_map_of_mem h)

/-! ## 2. One set -/

/-- **What holds in every state**, with one set of members throughout. -/
structure Tame (E : Env) (K : Cluster) (s : ClusterState) : Prop where
  me : ∀ r, K.Correct r → (s.replica r).id = r
  settled : ∀ r, K.Correct r → Settled E (s.replica r)
  sets : ∀ r, K.Correct r → ∀ e S, (s.replica r).sets.lookup e = some S → e = 0 ∧ GoodSet K E S
  set0 : ∀ r, K.Correct r → ∃ S, (s.replica r).sets.lookup 0 = some S
  votes : ∀ i h id v, (i, Effect.signed (.vote h id v)) ∈ s.trace →
    ∃ view parent cmd, id = blockID view h parent cmd

theorem Settled.newborn {n : Replica} (h : Newborn n) : Settled E n :=
  (Audit.Vetted.newborn h).settled

theorem Tame.init (h : Init E K s) : Tame E K s where
  me := fun r hr => (ReplicaInv.boot hr (h.2 r hr)).me
  settled := fun r hr => Settled.newborn (Audit.Newborn.boot (h.2 r hr))
  sets := fun r hr => (ReplicaInv.boot hr (h.2 r hr)).sets
  set0 := fun r hr => (ReplicaInv.boot hr (h.2 r hr)).set0
  votes := by simp [h.1]

theorem Tame.ready (h : Tame E K s) (hr : K.Correct l.actor) : Settled E (s.ready l) :=
  { h.settled l.actor hr with planted := (h.settled l.actor hr).planted.congr ⟨rfl, rfl, rfl, rfl⟩ }

theorem Tame.turn_sets (h : Tame E K s) (hen : s.Able E K t) :
    ∀ r, K.Correct r → ((s.turn E t).replica r).sets = (s.replica r).sets := by
  refine turn_replica (P := fun r n => n.sets = (s.replica r).sets) hen (fun _ _ => rfl) ?_ ?_
  · rintro l rfl
    exact ((h.ready hen.1).handle rfl hen.2.2.1).1
  · rintro r rfl
    exact (h.settled r hen.1).gc.1

theorem Tame.turn (h : Tame E K s) (hen : s.Able E K t) : Tame E K (s.turn E t) where
  me := by
    refine turn_replica (P := fun r n => n.id = r) hen h.me ?_ ?_
    · rintro l rfl
      exact (handle_moves (h.ready hen.1).planted.parked l.input).1.onward.id.trans
        (h.me l.actor hen.1)
    · rintro r rfl
      exact (gcLocked_frame _).1.trans (h.me r hen.1)
  settled := by
    refine turn_replica (P := fun _ n => Settled E n) hen h.settled ?_ ?_
    · rintro l rfl
      exact ((h.ready hen.1).handle rfl hen.2.2.1).2
    · rintro r rfl
      exact (h.settled r hen.1).gc.2
  sets := fun r hr => by
    rw [h.turn_sets hen r hr]
    exact h.sets r hr
  set0 := fun r hr => by
    rw [h.turn_sets hen r hr]
    exact h.set0 r hr
  votes := by
    intro i hgt id v hin
    rcases mem_turn_trace hin with hin | ⟨l, rfl, -, hout⟩
    · exact h.votes i hgt id v hin
    · exact (handle_moves (h.ready hen.1).planted.parked l.input).1.vote_digest rfl hout

end ClusterState

end Cachey.HotStuff
