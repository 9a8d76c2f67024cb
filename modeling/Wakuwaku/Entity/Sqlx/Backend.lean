import Mathlib.Data.Nat.Notation

/-! # What each database does differently

The errors of sqlx as far as the transaction driver tells them apart, the statements that begin a
transaction, and which errors of a statement end the transaction on the server. -/

namespace Wakuwaku.Entity.Sqlx

/-- An error the server sent. Only the MySQL driver's own error type has a number. -/
inductive DatabaseError where
  | mySql (number : UInt16)
  | other (message : String)
  deriving DecidableEq, Repr

/-- `sqlx::Error`. The variants the driver does not name are `other`. -/
inductive SqlxError where
  | database (error : DatabaseError)
  | io (message : String)
  | protocol (message : String)
  | rowNotFound
  | typeNotFound (typeName : String)
  | columnIndexOutOfBounds (index len : ℕ)
  | columnNotFound (name : String)
  | columnDecode (index : String)
  | encode (message : String)
  | decode (message : String)
  | invalidArgument (message : String)
  | other (message : String)
  deriving DecidableEq, Repr

/-- Whether the error is `Error::Database(_)`. -/
def SqlxError.isDatabase : SqlxError → Bool
  | .database _ => true
  | _ => false

/-- Whether the error was raised by sqlx on the client, after or instead of sending the statement. -/
def isClientSide : SqlxError → Bool
  | .rowNotFound | .typeNotFound _ | .columnIndexOutOfBounds _ _ | .columnNotFound _
  | .columnDecode _ | .encode _ | .decode _ | .invalidArgument _ => true
  | .database _ | .io _ | .protocol _ | .other _ => false

/-- SQL transaction isolation level. -/
inductive IsolationLevel where
  | readUncommitted
  | readCommitted
  | repeatableRead
  | serializable
  deriving DecidableEq, Repr

/-- How a transaction starts. -/
structure TxMode where
  isolation : Option IsolationLevel
  readOnly : Bool
  deriving DecidableEq, Repr

/-- A database the transaction driver knows how to handle. -/
structure SqlxBackend where
  /-- The statements that start a transaction, in order; the first that fails ends the start. -/
  begin : TxMode → List String
  /-- Whether an error of a statement inside a transaction ended that transaction on the server. -/
  abortsTransaction : SqlxError → Bool

/-! ### PostgreSQL -/

def beginStatement (mode : TxMode) : String :=
  match mode.isolation, mode.readOnly with
  | none, false => "BEGIN READ WRITE"
  | none, true => "BEGIN READ ONLY"
  | some .readUncommitted, false => "BEGIN ISOLATION LEVEL READ UNCOMMITTED READ WRITE"
  | some .readUncommitted, true => "BEGIN ISOLATION LEVEL READ UNCOMMITTED READ ONLY"
  | some .readCommitted, false => "BEGIN ISOLATION LEVEL READ COMMITTED READ WRITE"
  | some .readCommitted, true => "BEGIN ISOLATION LEVEL READ COMMITTED READ ONLY"
  | some .repeatableRead, false => "BEGIN ISOLATION LEVEL REPEATABLE READ READ WRITE"
  | some .repeatableRead, true => "BEGIN ISOLATION LEVEL REPEATABLE READ READ ONLY"
  | some .serializable, false => "BEGIN ISOLATION LEVEL SERIALIZABLE READ WRITE"
  | some .serializable, true => "BEGIN ISOLATION LEVEL SERIALIZABLE READ ONLY"

/-- Any error but a client-side one aborts a PostgreSQL transaction. -/
def postgres : SqlxBackend where
  begin mode := [beginStatement mode]
  abortsTransaction error := !isClientSide error

/-! ### MySQL -/

/-- `ER_LOCK_DEADLOCK`. -/
def lockDeadlock : UInt16 := 1213

def setIsolationStatement : IsolationLevel → String
  | .readUncommitted => "SET TRANSACTION ISOLATION LEVEL READ UNCOMMITTED"
  | .readCommitted => "SET TRANSACTION ISOLATION LEVEL READ COMMITTED"
  | .repeatableRead => "SET TRANSACTION ISOLATION LEVEL REPEATABLE READ"
  | .serializable => "SET TRANSACTION ISOLATION LEVEL SERIALIZABLE"

/-- Of the errors MySQL sends, only a deadlock aborts a transaction. -/
def mySql : SqlxBackend where
  begin mode := (mode.isolation.map setIsolationStatement).toList ++
    [if mode.readOnly then "START TRANSACTION READ ONLY" else "START TRANSACTION READ WRITE"]
  abortsTransaction
    | .database (.mySql number) => number == lockDeadlock
    | .database (.other _) => false
    | error => !isClientSide error

end Wakuwaku.Entity.Sqlx
