import Coursework.ForStd.List
import Mathlib.Logic.Function.Basic

/-!
# Transfers of zoobars

`transfer.php` as a program of five SQL statements, for any number of requests at a time. A
statement is executed at once, and the script has no transaction around them. What PHP computes
between two statements is taken with the one before it.
-/

namespace Zoobar

/-- The columns of the table `Person` that a transfer uses. -/
structure Person where
  personID : Int
  username : String
  zoobars : Int
  deriving DecidableEq, Repr

/-- The table `Person`. -/
abbrev Database := List Person

/-- `PHP_INT_MAX`. -/
def phpIntMax : Int := 2 ^ 63 - 1

namespace Database

/-- `SELECT ... WHERE PersonID=$id`, its first row. -/
def selectByID (db : Database) (id : Int) : Option Person := db.find? fun p => p.personID == id

/-- `SELECT ... WHERE Username='$name'`, its first row. -/
def selectByUsername (db : Database) (name : String) : Option Person :=
  db.find? fun p => p.username == name

/-- `UPDATE Person SET Zoobars = $zoobars WHERE PersonID=$id`. -/
def updateByID (db : Database) (id zoobars : Int) : Database :=
  db.updateKey Person.personID id fun p => { p with zoobars := zoobars }

/-- `UPDATE Person SET Zoobars = $zoobars WHERE Username='$name'`. -/
def updateByUsername (db : Database) (name : String) (zoobars : Int) : Database :=
  db.updateKey Person.username name fun p => { p with zoobars := zoobars }

/-- The sum of all balances. -/
def total (db : Database) : Int := (db.map Person.zoobars).sum

end Database

/-- `getValueByNr(0,0)` of a column `Zoobars`: null, which counts as 0, if there is no row. -/
def zoobarsOf (row : Option Person) : Int := (row.map Person.zoobars).getD 0

/-- `getValueByNr(0,0)` of a column `PersonID`, as a condition: null and 0 are false. -/
def recipientExists (row : Option Person) : Bool := row.any fun p => p.personID != 0

/-- A request of a user who is logged in: `$user->id` and the fields of the form, the amount
    after the cast to an integer. -/
structure Request where
  userID : Int
  recipient : String
  zoobars : Int

/-- Where a request is, with the variables it still uses. -/
inductive Point where
  | start
  /-- after `$sender_balance = ... - $zoobars` -/
  | senderRead (senderBalance : Int)
  /-- after `$recipient_exists = ...` -/
  | recipientRead (senderBalance : Int) (recipientExists : Bool)
  /-- after the update of the sender -/
  | senderUpdated
  /-- after `$recipient_balance = ... + $zoobars` -/
  | balanceRead (recipientBalance : Int)
  | finished
  deriving DecidableEq

/-- `$zoobars > 0 && $sender_balance >= 0 && $recipient_exists`. -/
def accepts (r : Request) (senderBalance : Int) (recipientExists : Bool) : Bool :=
  decide (0 < r.zoobars) && decide (0 ≤ senderBalance) && recipientExists

/-- The next statement of a request. There is none where a sum leaves the integers of PHP: it
    becomes a float. -/
def statement (db : Database) (r : Request) : Point → Option (Database × Point)
  | .start => some (db, .senderRead (zoobarsOf (db.selectByID r.userID) - r.zoobars))
  | .senderRead senderBalance =>
    some (db, .recipientRead senderBalance (recipientExists (db.selectByUsername r.recipient)))
  | .recipientRead senderBalance recipientExists =>
    if accepts r senderBalance recipientExists then
      some (db.updateByID r.userID senderBalance, .senderUpdated)
    else some (db, .finished)
  | .senderUpdated =>
    let recipientBalance := zoobarsOf (db.selectByUsername r.recipient) + r.zoobars
    if phpIntMax < recipientBalance then none else some (db, .balanceRead recipientBalance)
  | .balanceRead recipientBalance =>
    some (db.updateByUsername r.recipient recipientBalance, .finished)
  | .finished => some (db, .finished)

/-- The database, and where each request is. -/
structure State (ι : Type) where
  db : Database
  point : ι → Point

variable {ι : Type} [DecidableEq ι]

/-- Request `i` executes its next statement. -/
def step (requests : ι → Request) (s : State ι) (i : ι) : Option (State ι) :=
  (statement s.db (requests i) (s.point i)).map fun r =>
    { db := r.1, point := Function.update s.point i r.2 }

/-- An interleaving of the requests: which of them executes a statement next. -/
def run (requests : ι → Request) (s : State ι) (schedule : List ι) : Option (State ι) :=
  schedule.foldlM (step requests) s

/-- No request has started. -/
def boot (db : Database) : State ι := ⟨db, fun _ => .start⟩

end Zoobar
