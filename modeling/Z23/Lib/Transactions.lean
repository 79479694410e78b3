/-!
A connection to a database with nested transaction scopes: what the file holds, what the
connection sees, and the contents it can go back to.
-/

namespace Z23.Lib.Transactions

variable {σ : Type}

/--
`saved` has the content at the opening of each scope, the innermost first. With no scope open the
connection is in autocommit mode and sees what the file holds.
-/
structure Conn (σ : Type) where
  durable : σ
  current : σ
  saved : List σ
  settled : saved = [] → current = durable

/-- How a statement fails: it alone is undone, or the whole transaction is rolled back. -/
inductive Fault where
  | undone
  | cancelled
deriving DecidableEq, Repr

/-- In autocommit mode. -/
def Conn.closed (content : σ) : Conn σ where
  durable := content
  current := content
  saved := []
  settled := fun _ => rfl

/-- Everything since the opening of the outermost scope is gone. -/
def Conn.cancel (conn : Conn σ) : Conn σ := .closed conn.durable

def Conn.fail (conn : Conn σ) : Fault → Conn σ
  | .undone => conn
  | .cancelled => conn.cancel

/-- A statement that gives the content; in autocommit mode it is durable at once. -/
def Conn.write (conn : Conn σ) (content : σ) : Conn σ where
  durable := if conn.saved = [] then content else conn.durable
  current := content
  saved := conn.saved
  settled := fun closed => by rw [if_pos closed]

/-- `BEGIN`, which is an error inside a transaction. -/
def Conn.begin (conn : Conn σ) : Option (Conn σ) :=
  if conn.saved = [] then
    some { conn with saved := [conn.current], settled := fun opened => nomatch opened }
  else none

/-- `SAVEPOINT`, which opens a transaction where there is none. -/
def Conn.savepoint (conn : Conn σ) : Conn σ :=
  { conn with saved := conn.current :: conn.saved, settled := fun opened => nomatch opened }

/-- `COMMIT` -/
def Conn.commit (conn : Conn σ) : Option (Conn σ) :=
  if conn.saved = [] then none else some (.closed conn.current)

/-- `ROLLBACK` -/
def Conn.rollback (conn : Conn σ) : Option (Conn σ) :=
  if conn.saved = [] then none else some conn.cancel

/-- `ROLLBACK TO` the innermost savepoint, which stays open. -/
def Conn.rollbackTo (conn : Conn σ) : Option (Conn σ) :=
  match found : conn.saved with
  | [] => none
  | content :: _ =>
    some { conn with
      current := content,
      settled := fun closed => by rw [found] at closed; cases closed }

/-- `RELEASE` of the innermost savepoint; that of the outermost commits. -/
def Conn.release (conn : Conn σ) : Option (Conn σ) :=
  match conn.saved with
  | [] => none
  | [_] => some (.closed conn.current)
  | _ :: outer :: rest =>
    some { conn with saved := outer :: rest, settled := fun closed => nomatch closed }

-- What each statement leaves

@[ext]
theorem Conn.ext {left right : Conn σ} (durable : left.durable = right.durable)
    (current : left.current = right.current) (saved : left.saved = right.saved)
    : left = right := by
  cases left
  cases right
  simp_all

@[simp]
theorem Conn.fail_durable (conn : Conn σ) (how : Fault)
    : (conn.fail how).durable = conn.durable := by
  cases how <;> rfl

theorem Conn.write_durable {conn : Conn σ} (opened : conn.saved ≠ []) (content : σ)
    : (conn.write content).durable = conn.durable :=
  if_neg opened

/-- A scope that is opened, written in and gone back to leaves the connection as it was. -/
theorem Conn.rollbackTo_write_savepoint (conn : Conn σ) (content : σ)
    : (conn.savepoint.write content).rollbackTo = some conn.savepoint := rfl

/-- A savepoint that is released with nothing written since is as if it had not been. -/
theorem Conn.release_savepoint (conn : Conn σ) : conn.savepoint.release = some conn := by
  obtain ⟨durable, current, saved, settled⟩ := conn
  cases saved with
  | nil =>
    obtain rfl := settled rfl
    rfl
  | cons outer rest => rfl

end Z23.Lib.Transactions
