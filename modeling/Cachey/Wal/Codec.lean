/-
# An encoding of records

`json.Marshal` and `json.Unmarshal` are parameters of this development, with the laws each part of
it needs.  `recordCode` is one encoding of WAL records that has them.
-/
import Cachey.Lib.Code
import Cachey.Wal.Record

namespace Cachey.Wal

/-- The number of an operation, and the text of one nobody knows. -/
def Op.code : Op → ℕ × String
  | .put => (0, "")
  | .delete => (1, "")
  | .ttl => (2, "")
  | .noop => (3, "")
  | .config => (4, "")
  | .hotStuff => (5, "")
  | .membership => (6, "")
  | .other text => (7, text)

def Op.ofCode : ℕ × String → Option Op
  | (0, "") => some .put
  | (1, "") => some .delete
  | (2, "") => some .ttl
  | (3, "") => some .noop
  | (4, "") => some .config
  | (5, "") => some .hotStuff
  | (6, "") => some .membership
  | (7, text) => some (.other text)
  | _ => none

theorem Op.ofCode_code (op : Op) : Op.ofCode op.code = some op := by
  cases op <;> rfl

theorem Op.code_ofCode {x : ℕ × String} {op : Op} (h : Op.ofCode x = some op) : op.code = x := by
  unfold Op.ofCode at h
  split at h <;> cases h <;> rfl

def opCode : Code Op :=
  (Code.nat.pair Code.text).through Op.code Op.ofCode Op.ofCode_code Op.code_ofCode

def recordCode : Code Record :=
  (opCode.pair (Code.text.pair (Code.text.pair (Code.int.pair (Code.nat.pair (Code.nat.pair
    (Code.nat.pair ((Code.list Code.byte).pair (Code.list Code.byte))))))))).through
    (fun r => (r.op, r.key, r.val, r.exp, r.logIndex, r.term, r.raftIndex, r.config, r.data))
    (fun (op, key, val, exp, logIndex, term, raftIndex, config, data) =>
      some { op := op, key := key, val := val, exp := exp, logIndex := logIndex, term := term,
             raftIndex := raftIndex, config := config, data := data })
    (fun _ => rfl)
    (fun h => by cases h; rfl)

end Cachey.Wal
