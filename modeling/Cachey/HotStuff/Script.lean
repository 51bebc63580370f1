/-
# Scripts for one host

A script drives one host of a cluster of four -- the members, keys and signatures of `four` --
through a particular run.  The other members are whatever the script says they send: their keys
are their signatures.
-/
import Cachey.HotStuff.Host
import Cachey.HotStuff.Schedule

namespace Cachey.HotStuff

instance (E : Env) (K : Setup) (s : Host) (e : Event) :
    Decidable ((Host.machine E K).enabled s e) :=
  inferInstanceAs (Decidable (s.Enabled e))

namespace Script

/-- Member `r` of the cluster, with a log store. -/
def setup (r : String) (gcRetention : ℕ) : Setup where
  config := { (four false).config r with gcRetention := gcRetention }
  keys := (four false).members.map fun m => (m, (four false).priv m)
  durable := true

/-- The replica it is opened as. -/
def opened (E : Env) (K : Setup) : Replica :=
  match K.fresh E with
  | .ok n => n
  | .error _ => default

/-- The host at its first start. -/
def boot (E : Env) (K : Setup) : Host := Host.start K (opened E K)

/-- The environment in which the commands `[9]` and `[8]` change the membership. -/
def changing (nine eight : MembershipChange) : Env :=
  { plainEnv with
    record := fun cmd =>
      if cmd = [9] ∨ cmd = [8] then some { op := .membership, data := cmd } else none
    change := fun data => some (if data = [9] then nine else eight) }

def leaves (id : String) : MembershipChange := { add := [], remove := [id] }

/-- The command `[9]` removes `L3`, the command `[8]` removes `L2`. -/
def leaving : Env := changing (leaves "L3") (leaves "L2")

/-- A message arrives, at a moment at which nothing outside changes; writes succeed. -/
def hear (m : Message) : Host → Event := fun _ => .call (.deliver m) Move.still []

/-- `sender` proposes. -/
def propose (sender : String) (b : Block) : Host → Event :=
  hear (.proposal { block := b, sender := sender, viewChanges := [], sig := (four false).priv sender })

/-- `sender` asks for a view and reports a certificate. -/
def suspect (sender : String) (view : ℕ) (qc : QC) : Host → Event :=
  hear (.viewChange { view := view, epoch := 0, highQC := some qc, sender := sender,
                      sig := (four false).priv sender })

/-- The id at a height of a chain of view 0 with the given commands. -/
def idAt (cmds : ℕ → Bytes) : ℕ → BlockID
  | 0 => genesisID
  | h + 1 => .digest 0 (h + 1) (idAt cmds h) (cmds (h + 1))

/-- Its block, with the certificate of the one before. -/
def blockAt (cmds : ℕ → Bytes) (epochs : ℕ → ℕ) (voters : List String) (h : ℕ) : Block :=
  let qc := if h = 1 then root else certify (epochs (h - 1)) (idAt cmds (h - 1)) voters
  blockOf (idAt cmds h) qc (epochs h)

end Script

/-! `L1` follows `L0` through three blocks.  In the second script it takes over after two of them,
and the view changes it counts report the certificate of the second one. -/

namespace Following

def b1 : BlockID := .digest 0 1 genesisID [1]
def b2 : BlockID := .digest 0 2 b1 [2]
def b3 : BlockID := .digest 0 3 b2 [3]

def qc1 : QC := Script.certify 0 b1 ["L0", "L1", "L2"]
def qc2 : QC := Script.certify 0 b2 ["L0", "L1", "L2"]

/-- Three proposals, each with the certificate of the one before. -/
def normal : List (Host → Event) :=
  [Script.propose "L0" (Script.blockOf b1 Script.root 0),
   Script.propose "L0" (Script.blockOf b2 qc1 0),
   Script.propose "L0" (Script.blockOf b3 qc2 0), fun _ => .gc]

/-- Two proposals, then three view changes. -/
def takeOver : List (Host → Event) :=
  [Script.propose "L0" (Script.blockOf b1 Script.root 0),
   Script.propose "L0" (Script.blockOf b2 qc1 0),
   Script.suspect "L0" 1 qc2, Script.suspect "L2" 1 qc2, Script.suspect "L3" 1 qc2]

def after : Host :=
  (Host.machine plainEnv (Script.setup "L1" 1)).play (Script.boot plainEnv (Script.setup "L1" 1))
    takeOver

end Following

end Cachey.HotStuff
