/-
# The B+tree of the expiration index

`btree.Tree`: leaves hold the (expiry, key) pairs in order and are linked to one another for range
scans; inner nodes hold separators and one child more than separators.

* **Height.**  All leaves of a tree are equally deep: a tree grows and shrinks at the root only.
  `Node h` is a node of height `h`, a leaf if `h = 0`; the flag `leaf` of the source is the height
  being 0.
* **Pointers.**  Nodes are changed in place in the source; here a function returns the changed
  node.  What is left of the pointers is `next`, which names a leaf by its `id`, the number under
  which it was allocated.
* **Panics.**  An index out of range is `none`, and so is a call that meets one.
-/
import Cachey.Lib.Search
import Mathlib.Algebra.Ring.Nat
import Mathlib.Data.Finset.Sort
import Mathlib.Data.Prod.Lex
import Mathlib.Data.String.Basic

namespace Cachey.BTree

/-! ## 1. Pairs -/

/-- `Expiration`. -/
structure Expiration where
  key : String
  exp : Int
deriving DecidableEq, Repr

def less (a b : Expiration) : Bool := if a.exp ≠ b.exp then a.exp < b.exp else a.key < b.key

def equal (a b : Expiration) : Bool := a.exp = b.exp ∧ a.key = b.key

/-- Pairs are ordered by expiry first, then by key. -/
instance : LinearOrder Expiration :=
  LinearOrder.lift' (fun e => toLex (e.exp, e.key)) fun a b h => by
    cases a
    cases b
    cases h
    rfl

variable {a b : Expiration}

theorem lt_iff : a < b ↔ a.exp < b.exp ∨ a.exp = b.exp ∧ a.key < b.key :=
  Prod.Lex.toLex_lt_toLex

theorem less_iff : less a b = true ↔ a < b := by
  rw [lt_iff]
  unfold less
  split
  next hne => simp [hne]
  next heq => simp [not_not.mp heq]

theorem equal_iff : equal a b = true ↔ a = b := by
  cases a
  cases b
  simp [equal, and_comm]

theorem exp_le_of_lt (h : a < b) : a.exp ≤ b.exp := by
  rcases lt_iff.mp h with h | ⟨h, -⟩
  · exact h.le
  · exact h.le

/-! ## 2. Nodes -/

/-- `order`, `maxKeys` and `minKeys`. -/
def order : ℕ := 8

def maxKeys : ℕ := order - 1

def minKeys : ℕ := maxKeys / 2

/-- A leaf, and the leaf `next` of it. -/
structure Leaf where
  id : ℕ
  keys : List Expiration
  next : Option ℕ
deriving DecidableEq

/-- An inner node. -/
structure Inner (β : Type) where
  keys : List Expiration
  children : List β
deriving DecidableEq

/-- `node`, by its height. -/
@[reducible] def Node : ℕ → Type
  | 0 => Leaf
  | h + 1 => Inner (Node h)

/-- `keys` of either kind of node. -/
def Node.keys : {h : ℕ} → Node h → List Expiration
  | 0, l => Leaf.keys l
  | _ + 1, n => Inner.keys n

/-- The key at an index is high. -/
def highAt (keys : List Expiration) (high : Expiration → Bool) (i : ℕ) : Bool :=
  match keys[i]? with
  | some k => high k
  | none => true

/-- The loop of `lowerBound` and `childIndex`. -/
def searchKeys (keys : List Expiration) (high : Expiration → Bool) : ℕ :=
  search keys.length (highAt keys high)

def lowerBound (keys : List Expiration) (target : Expiration) : ℕ :=
  searchKeys keys fun k => !less k target

def childIndex (keys : List Expiration) (target : Expiration) : ℕ :=
  searchKeys keys fun k => less target k

namespace Node

variable {h : ℕ}

def underflow (n : Node h) : Bool := n.keys.length < minKeys

def canLend (n : Node h) : Bool := n.keys.length > minKeys

end Node

/-- `insertKey` and `insertChild`. -/
def insertAt {β : Type} (l : List β) (idx : ℕ) (x : β) : List β := l.take idx ++ x :: l.drop idx

/-- `keys[idx] = key`. -/
def setKey (keys : List Expiration) (idx : ℕ) (key : Expiration) : Option (List Expiration) :=
  if idx < keys.length then some (keys.set idx key) else none

/-! ## 3. Insertion -/

/-- `splitResult`. -/
structure SplitResult (h : ℕ) where
  key : Expiration
  right : Node h

/-- `splitLeaf`; the new leaf is allocated as `fresh`. -/
def splitLeaf (fresh : ℕ) (l : Leaf) : Option (Leaf × SplitResult 0) := do
  let mid := l.keys.length / 2
  let right : Leaf := { id := fresh, keys := l.keys.drop mid, next := l.next }
  let key ← right.keys.head?
  some ({ l with keys := l.keys.take mid, next := some fresh }, { key := key, right := right })

def splitInternal {h : ℕ} (n : Inner (Node h)) :
    Option (Inner (Node h) × SplitResult (h + 1)) := do
  let mid := n.keys.length / 2
  let promoted ← n.keys[mid]?
  let right : Inner (Node h) :=
    { keys := n.keys.drop (mid + 1), children := n.children.drop (mid + 1) }
  some ({ keys := n.keys.take mid, children := n.children.take (mid + 1) },
    { key := promoted, right := right })

/-- The target stands at `idx`. -/
def found (keys : List Expiration) (idx : ℕ) (target : Expiration) : Bool :=
  match keys[idx]? with
  | some k => equal k target
  | none => false

/-- `insert` in a leaf. -/
def insertLeaf (fresh : ℕ) (target : Expiration) (l : Leaf) :
    Option (Leaf × Option (SplitResult 0)) :=
  let idx := lowerBound l.keys target
  if found l.keys idx target then some (l, none)
  else
    let l := { l with keys := insertAt l.keys idx target }
    if l.keys.length ≤ maxKeys then some (l, none)
    else (splitLeaf fresh l).map fun r => (r.1, some r.2)

/-- `insert` in an inner node, once the child at `idx` has taken the target. -/
def insertSplit {h : ℕ} (idx : ℕ) (n : Inner (Node h)) :
    Option (SplitResult h) → Option (Inner (Node h) × Option (SplitResult (h + 1)))
  | none => some (n, none)
  | some split =>
    let n : Inner (Node h) :=
      { keys := insertAt n.keys idx split.key
        children := insertAt n.children (idx + 1) split.right }
    if n.keys.length ≤ maxKeys then some (n, none)
    else (splitInternal n).map fun r => (r.1, some r.2)

def Node.insert (fresh : ℕ) (target : Expiration) :
    {h : ℕ} → Node h → Option (Node h × Option (SplitResult h))
  | 0, l => insertLeaf fresh target l
  | h + 1, n =>
    let n : Inner (Node h) := n
    let idx := childIndex n.keys target
    do
      let child ← n.children[idx]?
      let r ← child.insert fresh target
      insertSplit idx { n with children := n.children.set idx r.1 } r.2

/-! ## 4. Deletion -/

/-- `delete` in a leaf, and whether the target was there. -/
def deleteLeaf (target : Expiration) (l : Leaf) : Leaf × Bool :=
  let idx := lowerBound l.keys target
  if found l.keys idx target then ({ l with keys := l.keys.eraseIdx idx }, true) else (l, false)

def borrowFromLeft (idx : ℕ) : {h : ℕ} → Inner (Node h) → Option (Inner (Node h))
  | 0, n => do
    let child : Leaf ← n.children[idx]?
    let left : Leaf ← n.children[idx - 1]?
    let moved ← left.keys.getLast?
    let keys ← setKey n.keys (idx - 1) moved
    let left : Leaf := { left with keys := left.keys.dropLast }
    let child : Leaf := { child with keys := moved :: child.keys }
    some { keys := keys, children := (n.children.set (idx - 1) left).set idx child }
  | h + 1, n => do
    let child : Inner (Node h) ← n.children[idx]?
    let left : Inner (Node h) ← n.children[idx - 1]?
    let lastKey ← left.keys.getLast?
    let movedChild ← left.children.getLast?
    let key ← n.keys[idx - 1]?
    let left : Inner (Node h) :=
      { keys := left.keys.dropLast, children := left.children.dropLast }
    let child : Inner (Node h) :=
      { keys := key :: child.keys, children := movedChild :: child.children }
    some { keys := n.keys.set (idx - 1) lastKey
           children := (n.children.set (idx - 1) left).set idx child }

def borrowFromRight (idx : ℕ) : {h : ℕ} → Inner (Node h) → Option (Inner (Node h))
  | 0, n => do
    let child : Leaf ← n.children[idx]?
    let right : Leaf ← n.children[idx + 1]?
    let moved ← right.keys.head?
    let right : Leaf := { right with keys := right.keys.tail }
    let child : Leaf := { child with keys := child.keys ++ [moved] }
    let first ← right.keys.head?
    let keys ← setKey n.keys idx first
    some { keys := keys, children := (n.children.set idx child).set (idx + 1) right }
  | h + 1, n => do
    let child : Inner (Node h) ← n.children[idx]?
    let right : Inner (Node h) ← n.children[idx + 1]?
    let movedChild ← right.children.head?
    let key ← n.keys[idx]?
    let first ← right.keys.head?
    let child : Inner (Node h) :=
      { keys := child.keys ++ [key], children := child.children ++ [movedChild] }
    let right : Inner (Node h) := { keys := right.keys.tail, children := right.children.tail }
    some { keys := n.keys.set idx first
           children := (n.children.set idx child).set (idx + 1) right }

/-- Two neighbours become one; `key` is the separator between them. -/
def joined (key : Expiration) : {h : ℕ} → Node h → Node h → Node h
  | 0, (left : Leaf), (right : Leaf) =>
    ({ left with keys := left.keys ++ right.keys, next := right.next } : Leaf)
  | h + 1, (left : Inner (Node h)), (right : Inner (Node h)) =>
    ({ keys := left.keys ++ [key] ++ right.keys
       children := left.children ++ right.children } : Inner (Node h))

def mergeChildren {h : ℕ} (idx : ℕ) (n : Inner (Node h)) : Option (Inner (Node h)) := do
  let left ← n.children[idx]?
  let right ← n.children[idx + 1]?
  let key ← n.keys[idx]?
  some { keys := n.keys.eraseIdx idx
         children := (n.children.set idx (joined key left right)).eraseIdx (idx + 1) }

/-- The child at `idx` has a key to spare. -/
def lends {h : ℕ} (n : Inner (Node h)) (idx : ℕ) : Bool := (n.children[idx]?).any Node.canLend

def fixChild {h : ℕ} (idx : ℕ) (n : Inner (Node h)) : Option (Inner (Node h)) := do
  let child ← n.children[idx]?
  if ¬ child.underflow then some n
  else if 0 < idx ∧ lends n (idx - 1) then borrowFromLeft idx n
  else if idx < n.children.length - 1 ∧ lends n (idx + 1) then borrowFromRight idx n
  else if 0 < idx then mergeChildren (idx - 1) n
  else mergeChildren idx n

/-- `delete`, and whether the target was there. -/
def Node.delete (target : Expiration) : {h : ℕ} → Node h → Option (Node h × Bool)
  | 0, l => some (deleteLeaf target l)
  | h + 1, n =>
    let n : Inner (Node h) := n
    let idx := childIndex n.keys target
    do
      let child ← n.children[idx]?
      let r ← child.delete target
      let n : Inner (Node h) := { n with children := n.children.set idx r.1 }
      if r.2 then
        let n ← fixChild idx n
        some (n, true)
      else some (n, false)

/-! ## 5. Trees -/

/-- The leaves below a node, from left to right. -/
def Node.leaves : {h : ℕ} → Node h → List Leaf
  | 0, l => [l]
  | _ + 1, n => (Inner.children n).flatMap Node.leaves

/-- `Tree`: the root, and the number the next leaf is allocated under. -/
structure Tree where
  height : ℕ
  root : Node height
  fresh : ℕ

namespace Tree

def new : Tree := { height := 0, root := ({ id := 0, keys := [], next := none } : Leaf), fresh := 1 }

def insert (target : Expiration) (t : Tree) : Option Tree := do
  let r ← t.root.insert t.fresh target
  match r.2 with
  | none => some { t with root := r.1, fresh := t.fresh + 1 }
  | some split =>
    let newRoot : Inner (Node t.height) := { keys := [split.key], children := [r.1, split.right] }
    some { height := t.height + 1, root := newRoot, fresh := t.fresh + 1 }

/-- The only child of an inner root takes its place. -/
def collapse (fresh : ℕ) : {h : ℕ} → Node h → Tree
  | 0, l => { height := 0, root := l, fresh := fresh }
  | h + 1, n =>
    match Inner.children n with
    | [child] => { height := h, root := child, fresh := fresh }
    | _ => { height := h + 1, root := n, fresh := fresh }

/-- `Delete`: whether the target was there; if not the source returns `ErrNotFound`. -/
def delete (target : Expiration) (t : Tree) : Option (Tree × Bool) := do
  let r ← t.root.delete target
  if r.2 then some (collapse t.fresh r.1, true)
  else some ({ t with root := r.1 }, false)

/-- The descent of `First` and `Range` to the leftmost leaf. -/
def leftmost : {h : ℕ} → Node h → Option Leaf
  | 0, l => some l
  | _ + 1, n => match Inner.children n with
    | [] => none
    | child :: _ => leftmost child

def first (t : Tree) : Option Expiration := do
  let l ← leftmost t.root
  l.keys.head?

/-- The inner loop of `Range` on the keys of one leaf, and whether the outer loop goes on. -/
def scan (bound : Int) : List Expiration → List Expiration → List Expiration × Bool
  | result, [] => (result, true)
  | result, e :: es => if e.exp > bound then (result, false) else scan bound (result ++ [e]) es

/-- The outer loop of `Range`, from the leaf `l` on.  A pointer leads to a leaf of the tree; the
loop takes at most `fuel` turns. -/
def walk (heap : List Leaf) (bound : Int) :
    (fuel : ℕ) → List Expiration → Leaf → Option (List Expiration)
  | 0, _, _ => none
  | fuel + 1, result, l =>
    match scan bound result l.keys with
    | (result, false) => some result
    | (result, true) =>
      match l.next with
      | none => some result
      | some id => do
        let l ← heap.find? fun l => l.id = id
        walk heap bound fuel result l

/-- `Range`: no turn goes to a leaf twice. -/
def range (bound : Int) (t : Tree) : Option (List Expiration) :=
  match leftmost t.root with
  | none => some []
  | some l => walk t.root.leaves bound t.root.leaves.length [] l

def content (t : Tree) : Finset Expiration := (t.root.leaves.flatMap Leaf.keys).toFinset

end Tree

end Cachey.BTree
