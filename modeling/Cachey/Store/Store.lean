/-
# The key-value store

`store.CacheyStore`: a map from keys to values with an optional absolute expiry, and an index of
the expiries.  This is the state machine behind all three modes of the server (single node, Raft,
HotStuff).

* **The clock.**  Every function that calls `time.Now().UnixMilli()` takes the time as the
  argument `now`.  The second reading `Get` makes in `expireKey` is the same `now`: a later one
  finds expired what an earlier one did.
* **The index.**  `expiration.Index` is an ordered set of (expiry, key) pairs behind a lock of
  its own; here it is the finite set itself.  `Delete` of an absent pair is an error nobody
  looks at, and changes nothing.
* **The log.**  `appendWAL` either returns nil or an error; which, and whether the record reaches
  the log all the same, is the environment's choice, the argument `w` (`Wal.WriteOutcome`).  A
  store without a log behaves as with `ok`.
* Times and expiries are `int64` in the source.  The one sum, in `TTL`, wraps (`i64`).
-/
import Cachey.Lib.GoMap
import Cachey.Wal.Record
import Mathlib.Algebra.Ring.Int.Defs
import Mathlib.Data.Finset.Max
import Mathlib.Data.Prod.Lex
import Mathlib.Data.String.Basic

namespace Cachey.Store

open Wal (Op Record SnapshotEntry WriteOutcome)

/-! ## 1. State -/

/-- `Entry`: a value and its expiry, a Unix time in milliseconds; 0 means it never expires. -/
structure Entry where
  value : String
  exp : Int
deriving DecidableEq, Repr

/-- The (expiry, key) pairs of `expiration.Index`, in lexicographic order. -/
abbrev Index := Finset (Int ×ₗ String)

/-- `CacheyStore`: the data and the expiry index. -/
structure CacheyStore where
  data : GoMap String Entry
  index : Index
deriving DecidableEq

/-- The errors a store call returns. -/
inductive StoreError where
  | invalidKey
  | notLogged
  | unknownOp (op : Op)
deriving DecidableEq, Repr

def newCacheyStore : CacheyStore := { data := ∅, index := ∅ }

/-- `int64` arithmetic: the representative of `n` modulo 2^64 in [-2^63, 2^63). -/
def i64 (n : Int) : Int := (n + 2 ^ 63) % 2 ^ 64 - 2 ^ 63

def isExpired (now : Int) (e : Entry) : Bool := e.exp ≠ 0 && e.exp ≤ now

namespace CacheyStore

/-- `index.Delete` of the pair of a key with a non-zero expiry. -/
def unindex (key : String) (e : Entry) (s : CacheyStore) : CacheyStore :=
  if e.exp ≠ 0 then { s with index := s.index.erase (toLex (e.exp, key)) } else s

/-! ## 2. Reads -/

/-- `expireKey`: drop the key if it still has the expiry that was seen, and that has passed. -/
def expireKey (now : Int) (key : String) (seen : Entry) (s : CacheyStore) : CacheyStore :=
  match s.data.lookup key with
  | none => s
  | some entry =>
    if entry.exp ≠ seen.exp ∨ ¬ isExpired now entry then s
    else { data := s.data.erase key, index := s.index.erase (toLex (entry.exp, key)) }

def get (now : Int) (key : String) (s : CacheyStore) : CacheyStore × Except StoreError String :=
  match s.data.lookup key with
  | none => (s, .error .invalidKey)
  | some entry =>
    if isExpired now entry then (s.expireKey now key entry, .error .invalidKey)
    else (s, .ok entry.value)

/-- What `Get` answers. -/
def answer (now : Int) (key : String) (s : CacheyStore) : Except StoreError String :=
  (s.get now key).2

/-! ## 3. Changes to one key -/

/-- The effect of a PUT: the old expiry leaves the index and the new entry has none. -/
def putLocked (key value : String) (s : CacheyStore) : CacheyStore :=
  let s := match s.data.lookup key with
    | none => s
    | some old => s.unindex key old
  { s with data := s.data.insert key { value := value, exp := 0 } }

def deleteLocked (now : Int) (key : String) (s : CacheyStore) :
    CacheyStore × Except StoreError Unit :=
  match s.data.lookup key with
  | none => (s, .error .invalidKey)
  | some entry =>
    let s := { s with data := s.data.erase key }.unindex key entry
    (s, if isExpired now entry then .error .invalidKey else .ok ())

/-- `ttlAtLocked`: set the expiry to `exp`; a key that has expired by now is dropped instead. -/
def ttlAtLocked (now : Int) (key : String) (exp : Int) (s : CacheyStore) :
    CacheyStore × Except StoreError Unit :=
  match s.data.lookup key with
  | none => (s, .error .invalidKey)
  | some entry =>
    let s := s.unindex key entry
    if isExpired now entry then ({ s with data := s.data.erase key }, .error .invalidKey)
    else
      ({ data := s.data.insert key { entry with exp := exp },
         index := insert (toLex (exp, key)) s.index }, .ok ())

/-! ## 4. The calls of a client

The first component of the result is the record handed to the log, if the call gets that far. -/

def put (w : WriteOutcome) (key value : String) (s : CacheyStore) :
    Option Record × CacheyStore × Except StoreError Unit :=
  let r : Record := { op := .put, key := key, val := value }
  if w ≠ .ok then (some r, s, .error .notLogged)
  else (some r, s.putLocked key value, .ok ())

def delete (w : WriteOutcome) (now : Int) (key : String) (s : CacheyStore) :
    Option Record × CacheyStore × Except StoreError Unit :=
  match s.data.lookup key with
  | none => (none, s, .error .invalidKey)
  | some _ =>
    let r : Record := { op := .delete, key := key }
    if w ≠ .ok then (some r, s, .error .notLogged)
    else (some r, s.deleteLocked now key)

/-- `TTL`: the expiry is `now + ttlMillis`, an `int64` sum. -/
def ttl (w : WriteOutcome) (now : Int) (key : String) (ttlMillis : Int) (s : CacheyStore) :
    Option Record × CacheyStore × Except StoreError Unit :=
  match s.data.lookup key with
  | none => (none, s, .error .invalidKey)
  | some _ =>
    let exp := i64 (now + ttlMillis)
    let r : Record := { op := .ttl, key := key, exp := exp }
    if w ≠ .ok then (some r, s, .error .notLogged)
    else (some r, s.ttlAtLocked now key exp)

/-! ## 5. Replay and snapshots -/

/-- `ApplyRecord`: one record of the log.  The operations of the consensus engines are not the
store's, and do nothing; an operation nobody knows is an error. -/
def applyRecord (now : Int) (rec : Record) (s : CacheyStore) :
    CacheyStore × Except StoreError Unit :=
  match rec.op with
  | .put => (s.putLocked rec.key rec.val, .ok ())
  | .delete => ((s.deleteLocked now rec.key).1, .ok ())
  | .ttl => ((s.ttlAtLocked now rec.key rec.exp).1, .ok ())
  | .noop | .config | .hotStuff | .membership => (s, .ok ())
  | .other text => (s, .error (.unknownOp (.other text)))

def loadEntry (s : CacheyStore) (e : SnapshotEntry) : CacheyStore :=
  { data := s.data.insert e.key { value := e.val, exp := e.exp },
    index := if e.exp ≠ 0 then insert (toLex (e.exp, e.key)) s.index else s.index }

/-- `ApplySnapshot`: the entries are added to what the store holds. -/
def applySnapshot (entries : List SnapshotEntry) (s : CacheyStore) : CacheyStore :=
  entries.foldl loadEntry s

/-- The snapshot entry of one key, unless it has expired. -/
def snapshotEntry (now : Int) (e : (_ : String) × Entry) : Option SnapshotEntry :=
  if isExpired now e.2 then none else some { key := e.1, val := e.2.value, exp := e.2.exp }

/-- `Snapshot`: the live entries, in the order the map is ranged over. -/
def snapshot (it : Iteration ((_ : String) × Entry)) (now : Int) (s : CacheyStore) :
    List SnapshotEntry :=
  (it.order s.data.entries).filterMap (snapshotEntry now)

/-! ## 6. Active expiration -/

/-- `cleanupExpired`: drop up to `limit` expired keys, soonest expiry first.  Every turn takes a
pair out of the index, so the size of the index bounds the turns. -/
def cleanupLoop (now : Int) : (turns limit : Nat) → CacheyStore → CacheyStore × Nat
  | 0, _, s => (s, 0)
  | _, 0, s => (s, 0)
  | turns + 1, limit + 1, s =>
    if hne : s.index.Nonempty then
      let e := s.index.min' hne
      let exp := (ofLex e).1
      let key := (ofLex e).2
      if exp > now then (s, 0)
      else
        let index := s.index.erase e
        match s.data.lookup key with
        | none => cleanupLoop now turns (limit + 1) { s with index := index }
        | some entry =>
          if entry.exp = exp ∧ isExpired now entry then
            let (s', removed) :=
              cleanupLoop now turns limit { data := s.data.erase key, index := index }
            (s', removed + 1)
          else cleanupLoop now turns (limit + 1) { s with index := index }
    else (s, 0)

/-- `cleanupExpired`: the store after the pass, and how many keys it removed. -/
def cleanupExpired (now : Int) (limit : Nat) (s : CacheyStore) : CacheyStore × Nat :=
  cleanupLoop now s.index.card limit s

end CacheyStore

end Cachey.Store
