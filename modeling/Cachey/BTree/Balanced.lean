/-
# The B+tree stays balanced and linked

What `assertInvariants` of the tree's tests looks at, read off the nodes themselves: how deep the
leaves are, how many keys and children each node has, on which side of a separator the keys lie, and
where the chain of `next` pointers leads.  The bounds that `Good` carries down the tree do not occur
in these statements.
-/
import Cachey.BTree.OrderedSet

namespace Cachey.BTree

/-! ## 1. What there is to see -/

namespace Node

/-- The depth of each leaf, from left to right. -/
def leafDepths : {h : ℕ} → Node h → List ℕ
  | 0, _ => [0]
  | _ + 1, n => (Inner.children n).flatMap fun c => c.leafDepths.map (· + 1)

def below : {h : ℕ} → Node h → List (Σ k, Node k)
  | 0, _ => []
  | h + 1, n => (Inner.children n).flatMap fun c => ⟨h, c⟩ :: c.below

/-- The keys of a subtree, separators included. -/
def allKeys : {h : ℕ} → Node h → List Expiration
  | 0, l => Leaf.keys l
  | _ + 1, n => Inner.keys n ++ (Inner.children n).flatMap allKeys

/-- An inner node has one child more than keys, and each key separates the subtrees left of it from
those right of it. -/
def Separates : {h : ℕ} → Node h → Prop
  | 0, _ => True
  | _ + 1, n => (Inner.children n).length = (Inner.keys n).length + 1 ∧
    ∀ A k B U V, Inner.keys n = A ++ k :: B → Inner.children n = U ++ V →
      U.length = A.length + 1 → (∀ x ∈ U.flatMap allKeys, x < k) ∧ ∀ x ∈ V.flatMap allKeys, k ≤ x

end Node

namespace Tree

/-- The leaves met on the way along the pointers; at most `fuel` of them. -/
def follow (heap : List Leaf) : (fuel : ℕ) → Leaf → Option (List Leaf)
  | 0, _ => none
  | fuel + 1, l =>
    match l.next with
    | none => some [l]
    | some id => do
      let l' ← heap.find? fun l => l.id = id
      let rest ← follow heap fuel l'
      some (l :: rest)

end Tree

/-! ## 2. Good nodes -/

theorem Node.eq_of_mem_leafDepths : ∀ {h : ℕ} {n : Node h}, ∀ d ∈ n.leafDepths, d = h
  | 0, _, d, hd => List.mem_singleton.mp hd
  | h + 1, n, d, hd => by
    obtain ⟨c, -, hd⟩ := List.mem_flatMap.mp hd
    obtain ⟨e, he, rfl⟩ := List.mem_map.mp hd
    rw [Node.eq_of_mem_leafDepths e he]

theorem Good.allKeys : ∀ {h : ℕ} {lo hi : Option Expiration} {n : Node h}, Good h lo hi n →
    ∀ x ∈ n.allKeys, Between lo hi x
  | 0, _, _, _, hg => hg.2
  | h + 1, _, _, n, hg => by
    intro x hx
    rcases List.mem_append.mp hx with hx | hx
    · obtain ⟨hlo, hhi⟩ := Separated.inside hg x hx
      exact ⟨fun a ha => (hlo a ha).le, hhi⟩
    · exact Separated.between (fun _ _ _ hc => Good.allKeys hc.1) hg x hx

variable {h : ℕ} {lo hi : Option Expiration}

theorem Good.separates {n : Node h} (hg : Good h lo hi n) : n.Separates := by
  cases h with
  | zero => trivial
  | succ h =>
    refine ⟨Separated.length hg, fun A k B U V hkeys hchildren hU => ?_⟩
    have hf : ∀ lo hi c, Child h lo hi c → ∀ x ∈ c.allKeys, Between lo hi x :=
      fun _ _ _ hc => Good.allKeys hc.1
    have hsep : Separated (Child h) lo hi (A ++ k :: B) (U ++ V) := hkeys ▸ hchildren ▸ hg
    obtain ⟨hleft, -, hright⟩ := hsep.split hU
    exact ⟨fun x hx => (hleft.between hf x hx).2 k rfl,
      fun x hx => (hright.between hf x hx).1 k rfl⟩

theorem Separated.child {ks : List Expiration} {cs : List (Node h)}
    (hg : Separated (Child h) lo hi ks cs) : ∀ c ∈ cs, ∃ lo' hi', Child h lo' hi' c := by
  induction hg with
  | single hc => exact fun c h => List.mem_singleton.mp h ▸ ⟨_, _, hc⟩
  | cons _ hc _ ih =>
    intro c h
    rcases List.mem_cons.mp h with rfl | h
    · exact ⟨_, _, hc⟩
    · exact ih c h

theorem Good.below : ∀ {h : ℕ} {lo hi : Option Expiration} {n : Node h}, Good h lo hi n →
    ∀ m ∈ n.below, Full m.2 ∧ m.2.Separates
  | 0, _, _, _, _, m, hm => absurd hm List.not_mem_nil
  | h + 1, _, _, n, hg, m, hm => by
    obtain ⟨c, hc, hm⟩ := List.mem_flatMap.mp hm
    obtain ⟨_, _, hgood, hfull⟩ := Separated.child hg c hc
    rcases List.mem_cons.mp hm with rfl | hm
    · exact ⟨hfull, hgood.separates⟩
    · exact Good.below hgood m hm

namespace Tree

theorem follow_eq : ∀ (rest pre : List Leaf) (l : Leaf) (fuel : ℕ),
    ((pre ++ l :: rest).map Leaf.id).Nodup → Linked (links (l :: rest)) → rest.length < fuel →
    follow (pre ++ l :: rest) fuel l = some (l :: rest)
  | _, _, _, 0, _, _, hfuel => absurd hfuel (Nat.not_lt_zero _)
  | [], _, l, fuel + 1, _, hlink, _ => by
    have hnext : l.next = none := hlink
    simp [follow, hnext]
  | l' :: rest, pre, l, fuel + 1, hnd, hlink, hfuel => by
    have hnext : l.next = some l'.id := hlink.1
    have hsplit : pre ++ l :: l' :: rest = (pre ++ [l]) ++ l' :: rest := by simp
    rw [hsplit] at hnd ⊢
    simp only [follow, hnext, Option.bind_eq_bind]
    rw [find_leaf hnd, Option.bind_some,
      follow_eq rest (pre ++ [l]) l' fuel hnd hlink.2 (Nat.lt_of_succ_lt_succ hfuel)]
    rfl

/-! ## 3. Any sequence of changes -/

/-- **The B+tree stays balanced and linked**, whatever is inserted and deleted from `New` on.  All
leaves are equally deep, every node but the root has between `minKeys` and `maxKeys` keys, each
separator separates, and the pointers lead from the leftmost leaf through all leaves in order. -/
theorem balanced_linked (changes : List Change) : ∃ t, Tree.new.run changes = some t ∧
    (∀ d ∈ t.root.leafDepths, d = t.height) ∧
    (∀ m ∈ t.root.below, minKeys ≤ m.2.keys.length ∧ m.2.keys.length ≤ maxKeys) ∧
    (0 < t.height → 1 ≤ t.root.keys.length) ∧ t.root.keys.length ≤ maxKeys ∧
    t.root.Separates ∧ (∀ m ∈ t.root.below, m.2.Separates) ∧
    ∃ l, leftmost t.root = some l ∧
      follow t.root.leaves t.root.leaves.length l = some t.root.leaves := by
  obtain ⟨t, hrun, ho, -⟩ := run_spec changes Ordered.new
  refine ⟨t, hrun, Node.eq_of_mem_leafDepths, fun m hm => (ho.good.below m hm).1, ho.inner, ho.size,
    ho.good.separates, fun m hm => (ho.good.below m hm).2, ?_⟩
  obtain ⟨l, rest, hl, hrest⟩ := leftmost_leaf ho.good
  have hids := ho.threaded.nodup
  have hlink := ho.threaded.linked
  rw [hrest] at hids hlink ⊢
  refine ⟨l, hl, follow_eq rest [] l _ ?_ hlink (Nat.lt_succ_self _)⟩
  simpa [links, Function.comp_def] using hids

end Tree

end Cachey.BTree
