/-
# The B+tree is an ordered set

From `New` on, whatever is inserted and deleted: no call meets an index out of range, the tree
contains what a set would, and the readers `First` and `Range` see it in order.

* `Ordered`: the invariant of a whole tree.  The root is good between no bounds at all, an inner
  root has a key, and the pointers run through the leaves from left to right.
* `insert_spec`, `delete_spec`: the two changes keep it, root split and root collapse included.
* `first_eq`, `range_eq`: the readers.  `Range` follows the pointers, not the tree.
* `ordered_set`: all of this along any sequence of changes.
-/
import Cachey.BTree.Delete
import Mathlib.Data.List.TakeWhile

namespace Cachey.BTree

namespace Tree

/-- What holds of a tree between two calls. -/
structure Ordered (t : Tree) : Prop where
  good : Good t.height none none t.root
  size : t.root.keys.length ≤ maxKeys
  inner : 0 < t.height → 0 < t.root.keys.length
  threaded : Threaded t.fresh (links t.root.leaves)

variable {t : Tree} {e x : Expiration}

theorem between_none (x : Expiration) : Between none none x := by
  constructor
  · intro a ha
    cases ha
  · intro b hb
    cases hb

theorem mem_content : x ∈ t.content ↔ x ∈ t.root.leaves.flatMap Leaf.keys :=
  List.mem_toFinset

/-! ## 1. Changes

The root is the one node that may be split without a parent, and the one that may run out of keys.
`collapse` then makes its only child the root. -/

theorem Ordered.new : Tree.new.Ordered where
  good := ⟨List.Pairwise.nil, by simp [Tree.new]⟩
  size := Nat.zero_le _
  inner := fun h => absurd h (Nat.lt_irrefl 0)
  threaded := ⟨rfl, List.nodup_singleton 0, by simp [Tree.new, Node.leaves, links]⟩

theorem insert_spec (ht : t.Ordered) (e : Expiration) :
    ∃ t', t.insert e = some t' ∧ t'.Ordered ∧ t'.content = Insert.insert e t.content := by
  obtain ⟨r, heq, hr⟩ := BTree.insert_spec t.fresh ht.good ht.size (between_none e)
  unfold Tree.insert
  rw [heq]
  cases hr with
  | whole hg hmax hmin htake =>
    refine ⟨_, rfl, ⟨hg, hmax, fun h => lt_of_lt_of_le (ht.inner h) hmin,
      htake.links.threaded ht.threaded⟩, ?_⟩
    ext x
    rw [mem_content, Finset.mem_insert, mem_content]
    exact htake.mem x
  | split hsep htake =>
    next n' s =>
    have hleaves : Node.leaves (h := t.height + 1)
        (⟨[s.key], [n', s.right]⟩ : Inner (Node t.height)) = n'.leaves ++ s.right.leaves := by
      simp [leaves_inner]
    refine ⟨_, rfl, ⟨hsep, (by decide : 1 ≤ maxKeys), fun _ => Nat.one_pos, ?_⟩, ?_⟩
    · rw [hleaves]
      exact htake.links.threaded ht.threaded
    · ext x
      rw [mem_content, Finset.mem_insert, mem_content, hleaves]
      exact htake.mem x

theorem collapse_spec : ∀ {h : ℕ} {n : Node h} {fresh : ℕ}, Good h none none n →
    n.keys.length ≤ maxKeys → Threaded fresh (links n.leaves) →
    (collapse fresh n).Ordered ∧ (collapse fresh n).root.leaves = n.leaves
  | 0, _, _, hg, hmax, ht => ⟨⟨hg, hmax, fun h => absurd h (Nat.lt_irrefl 0), ht⟩, rfl⟩
  | h + 1, n, fresh, hg, hmax, ht => by
    obtain ⟨keys, children⟩ : Inner (Node h) := n
    have hlen : children.length = keys.length + 1 := Separated.length hg
    rcases children with _ | ⟨child, _ | ⟨child', rest⟩⟩
    · cases hlen
    · obtain rfl : keys = [] := List.eq_nil_of_length_eq_zero (by simpa using hlen.symm)
      have hsame : Node.leaves (h := h + 1) (⟨[], [child]⟩ : Inner (Node h)) = child.leaves := by
        simp [leaves_inner]
      rw [hsame] at ht
      cases hg with
      | single hc =>
        exact ⟨⟨hc.1, hc.2.2, fun _ => lt_of_lt_of_le (by decide) hc.2.1, ht⟩, hsame.symm⟩
    · refine ⟨⟨hg, hmax, fun _ => ?_, ht⟩, rfl⟩
      change 0 < keys.length
      simp only [List.length_cons] at hlen
      omega

theorem delete_spec (ht : t.Ordered) (e : Expiration) :
    ∃ t' found, t.delete e = some (t', found) ∧ t'.Ordered ∧ (found = true ↔ e ∈ t.content) ∧
      t'.content = t.content.erase e := by
  obtain ⟨r, heq, hr⟩ := BTree.delete_spec ht.good (between_none e) ht.inner
  have hcontent : ∀ t' : Tree, t'.root.leaves = r.1.leaves → t'.content = t.content.erase e := by
    intro t' hleaves
    ext x
    rw [mem_content, Finset.mem_erase, mem_content, hleaves, and_comm]
    exact hr.removes.mem x
  have hfound : r.2 = true ↔ e ∈ t.content := hr.removes.found.trans mem_content.symm
  have hthread := hr.removes.links.threaded ht.threaded
  unfold Tree.delete
  rw [heq]
  dsimp only [Option.bind_eq_bind, Option.bind_some]
  cases hb : r.2 with
  | true =>
    rw [if_pos rfl]
    obtain ⟨ho, hleaves⟩ := collapse_spec hr.good (le_trans hr.noneNew ht.size) hthread
    exact ⟨_, _, rfl, ho, hb ▸ hfound, hcontent _ hleaves⟩
  | false =>
    rw [if_neg (by simp)]
    refine ⟨_, _, rfl, ⟨hr.good, le_trans hr.noneNew ht.size, ?_, hthread⟩, hb ▸ hfound,
      hcontent _ rfl⟩
    rw [hr.same hb]
    exact ht.inner

/-! ## 2. Readers

`First` goes down to the leftmost leaf; `Range` starts there and follows the pointers.  That this
meets the leaves of the tree in order, and each of them once, is what `Threaded` is for. -/

theorem entries_ne_nil : ∀ {h : ℕ} {lo hi : Option Expiration} {c : Node h}, Child h lo hi c →
    c.entries ≠ []
  | 0, _, _, c, hc => by
    rw [entries_leaf]
    intro hnil
    exact absurd hc.2.1 (by
      change ¬ minKeys ≤ (Leaf.keys c).length
      rw [hnil]
      decide)
  | h + 1, _, _, c, hc => by
    rw [entries_inner]
    obtain ⟨keys, children⟩ : Inner (Node h) := c
    obtain ⟨hg, -⟩ := hc
    cases hg with
    | single hc => simpa using entries_ne_nil hc
    | cons _ hc _ =>
      rw [List.flatMap_cons]
      exact List.append_ne_nil_of_left_ne_nil (entries_ne_nil hc) _

theorem leftmost_head : ∀ {h : ℕ} {lo hi : Option Expiration} {n : Node h}, Good h lo hi n →
    ∃ l, leftmost n = some l ∧ n.leaves.head? = some l ∧ l.keys.head? = n.entries.head?
  | 0, _, _, n, _ => ⟨n, rfl, rfl, by rw [entries_leaf]⟩
  | h + 1, _, _, n, hg => by
    obtain ⟨keys, children⟩ : Inner (Node h) := n
    obtain ⟨c, cs, lo', hi', rfl, hc⟩ : ∃ c cs lo' hi', children = c :: cs ∧ Child h lo' hi' c := by
      cases hg with
      | single hc => exact ⟨_, _, _, _, rfl, hc⟩
      | cons _ hc _ => exact ⟨_, _, _, _, rfl, hc⟩
    obtain ⟨l, hl, hhead, hkeys⟩ := leftmost_head hc.1
    refine ⟨l, hl, ?_, ?_⟩
    · rw [leaves_inner, List.flatMap_cons, List.head?_append, hhead]
      rfl
    · rw [hkeys, entries_inner]
      rw [List.flatMap_cons, List.head?_append]
      obtain ⟨x, rest, hx⟩ := List.exists_cons_of_ne_nil (entries_ne_nil hc)
      rw [hx]
      rfl

theorem first_eq (ht : t.Ordered) : t.first = t.root.entries.head? := by
  obtain ⟨l, hl, -, hkeys⟩ := leftmost_head ht.good
  unfold first
  rw [hl, ← hkeys]
  rfl

theorem scan_eq (bound : Int) : ∀ (ks result : List Expiration),
    scan bound result ks =
      (result ++ ks.takeWhile (fun e => e.exp ≤ bound), ks.all fun e => e.exp ≤ bound)
  | [], result => by simp [scan]
  | e :: es, result => by
    unfold scan
    by_cases he : e.exp ≤ bound
    · rw [if_neg (not_lt.mpr he), scan_eq bound es]
      simp [he]
    · rw [if_pos (not_le.mp he)]
      simp [he]

theorem find_leaf {pre rest : List Leaf} {l : Leaf}
    (hnd : ((pre ++ l :: rest).map Leaf.id).Nodup) :
    (pre ++ l :: rest).find? (fun l' => l'.id = l.id) = some l := by
  have hpre : ∀ l' ∈ pre, ¬ l'.id = l.id := by
    intro l' hl' heq
    rw [List.map_append, List.map_cons, List.nodup_append] at hnd
    exact hnd.2.2 l'.id (List.mem_map_of_mem hl') l.id List.mem_cons_self heq
  rw [List.find?_append, List.find?_eq_none.mpr (by simpa using hpre)]
  simp

/-- **The walk along the pointers** reads the leaves from `l` on, from left to right. -/
theorem walk_eq (bound : Int) : ∀ (rest pre : List Leaf) (l : Leaf) (fuel : ℕ)
    (result : List Expiration), ((pre ++ l :: rest).map Leaf.id).Nodup →
    Linked (links (l :: rest)) → rest.length < fuel →
    walk (pre ++ l :: rest) bound fuel result l =
      some (result ++ ((l :: rest).flatMap Leaf.keys).takeWhile fun e => e.exp ≤ bound)
  | _, _, _, 0, _, _, _, hfuel => absurd hfuel (Nat.not_lt_zero _)
  | rest, pre, l, fuel + 1, result, hnd, hlink, hfuel => by
    rw [List.flatMap_cons, List.takeWhile_append]
    unfold walk
    rw [scan_eq]
    by_cases hall : l.keys.all (fun e => e.exp ≤ bound) = true
    · have hkeys : l.keys.takeWhile (fun e => e.exp ≤ bound) = l.keys :=
        List.takeWhile_eq_self_iff.mpr (by simpa using hall)
      rw [hall, hkeys, if_pos rfl]
      cases rest with
      | nil =>
        have hnext : l.next = none := hlink
        simp [hnext]
      | cons l' rest =>
        have hnext : l.next = some l'.id := hlink.1
        have hsplit : pre ++ l :: l' :: rest = (pre ++ [l]) ++ l' :: rest := by simp
        rw [hsplit] at hnd ⊢
        have hstep := walk_eq bound rest (pre ++ [l]) l' fuel (result ++ l.keys) hnd hlink.2
          (Nat.lt_of_succ_lt_succ hfuel)
        simp only [hnext, Option.bind_eq_bind]
        rw [find_leaf hnd, Option.bind_some, hstep, List.append_assoc]
    · have hshort : ¬ (l.keys.takeWhile fun e => e.exp ≤ bound).length = l.keys.length := by
        intro hlen
        have := (List.takeWhile_prefix (p := fun e : Expiration => e.exp ≤ bound)).eq_of_length hlen
        exact hall (by simpa using List.takeWhile_eq_self_iff.mp this)
      rw [if_neg hshort]
      simp [hall]

theorem leftmost_leaf {h : ℕ} {lo hi : Option Expiration} {n : Node h} (hg : Good h lo hi n) :
    ∃ l rest, leftmost n = some l ∧ n.leaves = l :: rest := by
  obtain ⟨l, hl, hhead, -⟩ := leftmost_head hg
  obtain ⟨rest, hrest⟩ := List.head?_eq_some_iff.mp hhead
  exact ⟨l, rest, hl, hrest⟩

theorem range_eq (ht : t.Ordered) (bound : Int) :
    t.range bound = some (t.root.entries.takeWhile fun e => e.exp ≤ bound) := by
  obtain ⟨l, rest, hl, hrest⟩ := leftmost_leaf ht.good
  have hids : ((([] : List Leaf) ++ l :: rest).map Leaf.id).Nodup := by
    have := ht.threaded.nodup
    rw [hrest] at this
    simpa [links, Function.comp_def] using this
  have hlink := ht.threaded.linked
  rw [hrest] at hlink
  unfold range
  rw [hl]
  unfold Node.entries
  rw [hrest]
  exact walk_eq bound rest [] l _ [] hids hlink (Nat.lt_succ_self _)

/-! ## 3. Any sequence of changes -/

/-- A call that changes a tree. -/
inductive Change where
  | insert (e : Expiration)
  | delete (e : Expiration)
deriving DecidableEq

def Change.run (t : Tree) : Change → Option Tree
  | .insert e => t.insert e
  | .delete e => (t.delete e).map Prod.fst

def Change.on (s : Finset Expiration) : Change → Finset Expiration
  | .insert e => Insert.insert e s
  | .delete e => s.erase e

def run (t : Tree) (changes : List Change) : Option Tree := changes.foldlM Change.run t

theorem Change.run_spec (ht : t.Ordered) (c : Change) :
    ∃ t', c.run t = some t' ∧ t'.Ordered ∧ t'.content = c.on t.content := by
  cases c with
  | insert e => exact insert_spec ht e
  | delete e =>
    obtain ⟨t', found, heq, ho, -, hcontent⟩ := delete_spec ht e
    exact ⟨t', by rw [Change.run, heq]; rfl, ho, hcontent⟩

theorem run_spec : ∀ (changes : List Change) {t : Tree}, t.Ordered →
    ∃ t', t.run changes = some t' ∧ t'.Ordered ∧ t'.content = changes.foldl Change.on t.content
  | [], t, ht => ⟨t, rfl, ht, rfl⟩
  | c :: changes, t, ht => by
    obtain ⟨t₁, h₁, ho₁, hc₁⟩ := Change.run_spec ht c
    obtain ⟨t₂, h₂, ho₂, hc₂⟩ := run_spec changes ho₁
    refine ⟨t₂, ?_, ho₂, ?_⟩
    · rw [run, List.foldlM_cons, h₁]
      exact h₂
    · rw [hc₂, hc₁]
      rfl

theorem mem_entries : x ∈ t.root.entries ↔ x ∈ t.content := mem_content.symm

theorem first_spec (ht : t.Ordered) : (∀ e, t.first = some e ↔ IsLeast (t.content : Set _) e) ∧
    (t.first = none ↔ t.content = ∅) := by
  have hsorted := ht.good.pairwise
  rw [first_eq ht]
  cases hentries : t.root.entries with
  | nil =>
    have hempty : t.content = ∅ := by
      ext x
      rw [← mem_entries, hentries]
      simp
    refine ⟨fun e => ⟨fun h => (nomatch h), fun h => ?_⟩, by simp [hempty]⟩
    have hin := h.1
    rw [hempty] at hin
    cases hin
  | cons x rest =>
    rw [hentries] at hsorted
    have hleast : IsLeast (t.content : Set _) x := by
      refine ⟨?_, fun y hy => ?_⟩
      · rw [Finset.mem_coe, ← mem_entries, hentries]
        exact List.mem_cons_self
      · rw [Finset.mem_coe, ← mem_entries, hentries] at hy
        rcases List.mem_cons.mp hy with rfl | hy
        · exact le_rfl
        · exact le_of_lt ((List.pairwise_cons.mp hsorted).1 y hy)
    refine ⟨fun e => ⟨?_, fun h => ?_⟩, ?_⟩
    · rintro h
      cases h
      exact hleast
    · exact congrArg some (hleast.unique h)
    · simp only [List.head?_cons, reduceCtorEq, false_iff]
      intro hempty
      have := hleast.1
      rw [hempty] at this
      cases this

theorem takeWhile_spec {bound : Int} : ∀ {l : List Expiration}, l.Pairwise (· < ·) →
    ∀ x, x ∈ l.takeWhile (fun e => e.exp ≤ bound) ↔ x ∈ l ∧ x.exp ≤ bound
  | [], _, x => by simp
  | e :: l, hs, x => by
    obtain ⟨hlt, hs⟩ := List.pairwise_cons.mp hs
    by_cases he : e.exp ≤ bound
    · rw [List.takeWhile_cons_of_pos (by simpa using he), List.mem_cons, takeWhile_spec hs,
        List.mem_cons]
      constructor
      · rintro (rfl | ⟨hx, hb⟩)
        · exact ⟨Or.inl rfl, he⟩
        · exact ⟨Or.inr hx, hb⟩
      · rintro ⟨rfl | hx, hb⟩
        · exact Or.inl rfl
        · exact Or.inr ⟨hx, hb⟩
    · rw [List.takeWhile_cons_of_neg (by simpa using he)]
      constructor
      · exact fun h => absurd h (by simp)
      · rintro ⟨hx, hb⟩
        rcases List.mem_cons.mp hx with rfl | hx
        · exact absurd hb he
        · exact absurd (le_trans (exp_le_of_lt (hlt x hx)) hb) he

theorem range_spec (ht : t.Ordered) (bound : Int) :
    ∃ l, t.range bound = some l ∧ l.Pairwise (· < ·) ∧
      ∀ x, x ∈ l ↔ x ∈ t.content ∧ x.exp ≤ bound := by
  refine ⟨_, range_eq ht bound, ?_, fun x => ?_⟩
  · exact ht.good.pairwise.sublist (List.takeWhile_sublist _)
  · rw [takeWhile_spec ht.good.pairwise, mem_entries]

/-- **The B+tree implements an ordered set.**  After any insertions and deletions from `New`:
the calls have returned and the content is that of the set; a deletion reports exactly whether the
pair is there, and changes nothing if it is not; `First` is the least pair; `Range` lists the pairs
up to its bound in ascending order. -/
theorem ordered_set (changes : List Change) :
    ∃ t, Tree.new.run changes = some t ∧ t.content = changes.foldl Change.on ∅ ∧
      (∀ e, ∃ t' found, t.delete e = some (t', found) ∧ (found = false ↔ e ∉ t.content) ∧
        (found = false → t'.content = t.content)) ∧
      (∀ e, t.first = some e ↔ IsLeast (t.content : Set Expiration) e) ∧
      (t.first = none ↔ t.content = ∅) ∧
      ∀ bound, ∃ l, t.range bound = some l ∧ l.Pairwise (· < ·) ∧
        ∀ x, x ∈ l ↔ x ∈ t.content ∧ x.exp ≤ bound := by
  obtain ⟨t, hrun, ho, hcontent⟩ := run_spec changes Ordered.new
  obtain ⟨hleast, hnone⟩ := first_spec ho
  refine ⟨t, hrun, hcontent, fun e => ?_, hleast, hnone, range_spec ho⟩
  obtain ⟨t', found, heq, -, hfound, herase⟩ := delete_spec ho e
  have habsent : found = false ↔ e ∉ t.content := by rw [← hfound, Bool.not_eq_true]
  refine ⟨t', found, heq, habsent, fun hno => ?_⟩
  rw [herase, Finset.erase_eq_of_notMem (habsent.mp hno)]

/-- Twenty pairs go in and all but five out again: leaves are split and merged on the way. -/
example :
    let pairs := (List.range 20).map fun i : ℕ => (⟨toString i, i⟩ : Expiration)
    (Tree.new.run (pairs.map .insert ++ (pairs.take 15).map .delete)).bind (range 16) =
      some [⟨"15", 15⟩, ⟨"16", 16⟩] := by
  decide +kernel

end Tree

end Cachey.BTree
