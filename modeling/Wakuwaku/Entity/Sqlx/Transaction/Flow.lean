import Wakuwaku.Session
import Wakuwaku.Entity.Effect
import Wakuwaku.Entity.Sqlx.Backend

/-! # Transactions as state machines whose steps run queries

A `TxFlow` is stepped inside an open transaction until one of its states is terminal, and the driver
then ends the transaction (`drive`). What a run does is the list of its `TxEvent`s. The database
answers each request as it likes, depending on everything that happened before (`Server`), and a
step is the tree of the queries it runs on the results it gets (`StepProg`). -/

namespace Wakuwaku.Entity.Sqlx.Transaction

open Wakuwaku.Session

/-! ### The flow -/

/-- How a flow ends: its terminal states. -/
inductive TxEnd (C A R : Type) where
  | commit (output : C) (report : R)
  | rollback (output : A) (report : R)
  deriving DecidableEq, Repr

/-- The report of an end. -/
def TxEnd.report {C A R : Type} : TxEnd C A R → R
  | .commit _ report => report
  | .rollback _ report => report

/-- What the caller of a transaction gets when it ended as planned. -/
inductive TxOutput (C A : Type) where
  | committed (output : C)
  | rolledBack (output : A)
  deriving DecidableEq, Repr

/-- What the transaction hook gets: the flow's report, and what became of the transaction. -/
inductive TxFinalState (R : Type) where
  | committed (report : R)
  | rolledBack (report : R)
  | commitUnknown (report : R)
  deriving DecidableEq, Repr

/-- The report in a final state. -/
def TxFinalState.report {R : Type} : TxFinalState R → R
  | .committed report | .rolledBack report | .commitUnknown report => report

/-- Why a transaction didn't end as its flow planned. -/
inductive TxError where
  | begin (error : SqlxError)
  | commitRejected (error : SqlxError)
  | commitUnknown (error : SqlxError)
  | aborted
  | endMismatch
  deriving DecidableEq, Repr

/-- The queries a flow may run: what each gives back, and how its error relates to those of sqlx. -/
structure Queries where
  Query : Type
  Output : Query → Type
  Error : Query → Type
  /-- The sqlx error this is or wraps, or `none` for an error of the query's own. -/
  asSqlxError : {query : Query} → Error query → Option SqlxError
  /-- `From<sqlx::Error>`. -/
  fromSqlx : {query : Query} → SqlxError → Error query

/-- The result of a query. -/
abbrev Queries.Result (Q : Queries) (query : Q.Query) : Type := Except (Q.Error query) (Q.Output query)

/-- The body of `TxFlow::step`: it runs queries with `Tx::run`, looks at `Tx::is_aborted`, and
returns through `Tx::with` or `Tx::end`. -/
inductive StepProg (Q : Queries) (S : Type) where
  | run (query : Q.Query) (next : Q.Result query → StepProg Q S)
  | isAborted (next : Bool → StepProg Q S)
  | withState (state : S)
  | endState (state : S)

/-- The business logic of a transaction, as a state machine. -/
structure TxFlow extends Queries where
  State : Type
  Entities : Type
  /-- The accesses declared with `tx_effect!`. -/
  capability : List (Access Entities)
  database : SqlxBackend
  Commit : Type
  Abort : Type
  Report : Type
  isolation : Option IsolationLevel
  /-- `From<TxEnd<Self>>`. -/
  ofEnd : TxEnd Commit Abort Report → State
  step : State → StepProg toQueries State
  finished : State → State ⊕ TxEnd Commit Abort Report

/-- How to begin a transaction for a flow. -/
def mode (F : TxFlow) : TxMode where
  isolation := F.isolation
  readOnly := !(txEffect F.capability).kind.writes

/-! ### The session with the database -/

/-- What happens in a run, in order. `ended` is `Tx::end` on a terminal state, `step` a call of
`TxFlow::step`. -/
inductive TxEvent (F : TxFlow) where
  | acquire (result : Except SqlxError Unit)
  | begin (statement : String) (result : Except SqlxError Unit)
  | step (state : F.State)
  | query (query : F.Query) (result : F.Result query)
  | ended (last : TxEnd F.Commit F.Abort F.Report)
  | commit (result : Except SqlxError Unit)
  | rollback (result : Except SqlxError Unit)
  | hook (state : TxFinalState F.Report)
  | onError

/-- The pool and the database: what they answer after the events so far. -/
structure Server (F : TxFlow) where
  acquire : List (TxEvent F) → Except SqlxError Unit
  begin : List (TxEvent F) → String → Except SqlxError Unit
  query : List (TxEvent F) → (query : F.Query) → F.Result query
  commit : List (TxEvent F) → Except SqlxError Unit
  rollback : List (TxEvent F) → Except SqlxError Unit

/-! ### The driver -/

/-- An open transaction, handed to `TxFlow::step`. -/
structure Tx where
  aborted : Bool
  deriving DecidableEq, Repr

/-- A state of the flow, and the transaction it runs in: open, or ended if the state is terminal.
The transaction itself is the session, so only whether it is still open is kept. -/
structure TxState (F : TxFlow) where
  isOpen : Bool
  state : F.State
  aborted : Bool
  /-- The result of `COMMIT`, if it was sent. -/
  commit : Option (Except SqlxError Unit)

/-- A finished transaction. -/
structure Done (F : TxFlow) where
  output : Except TxError (TxOutput F.Commit F.Abort)
  report : Option (TxFinalState F.Report)

/-- No connection, or `BEGIN` failed. -/
def Done.notBegun {F : TxFlow} (error : SqlxError) : Done F where
  output := .error (.begin error)
  report := none

/-- The error of a query sent after the transaction was aborted. -/
def alreadyAborted : SqlxError :=
  .protocol "transaction already aborted by an earlier statement"

variable {F : TxFlow}

/-- Whether the error of a query ended the transaction on the server. -/
def aborts (F : TxFlow) {query : F.Query} : F.Result query → Bool
  | .error error => (F.asSqlxError error).any F.database.abortsTransaction
  | .ok _ => false

/-- Run a query in the transaction. -/
def Tx.run (server : Server F) (tx : Tx) (query : F.Query) : Session (TxEvent F) (Tx × F.Result query) :=
  if tx.aborted then
    return (tx, .error (F.fromSqlx alreadyAborted))
  else do
    let result ← call (server.query · query) (.query query)
    return (if aborts F result then { tx with aborted := true } else tx, result)

/-- Go on with `state`. -/
def Tx.withState (tx : Tx) (state : F.State) : TxState F where
  isOpen := true
  state := state
  aborted := tx.aborted
  commit := none

/-- The request that ends the transaction: `COMMIT` for a commit, unless the transaction is aborted,
and `ROLLBACK` otherwise. The result is that of `COMMIT`, if it was sent. -/
def Tx.close (server : Server F) (tx : Tx) :
    TxEnd F.Commit F.Abort F.Report → Session (TxEvent F) (Option (Except SqlxError Unit))
  | .commit _ _ =>
    if tx.aborted then (fun _ => none) <$> call server.rollback .rollback
    else some <$> call server.commit .commit
  | .rollback _ _ => (fun _ => none) <$> call server.rollback .rollback

/-- End the transaction if `state` is terminal, else go on with it. -/
def Tx.endState (server : Server F) (tx : Tx) (state : F.State) : Session (TxEvent F) (TxState F) :=
  match F.finished state with
  | .inl state => return tx.withState state
  | .inr last => do
    emit (.ended last)
    let commit ← tx.close server last
    return { isOpen := false, state := F.ofEnd last, aborted := tx.aborted, commit }

/-- What became of a transaction that `Tx::end` closed with the terminal `state`. -/
def close (state : F.State) (aborted : Bool) (commit : Option (Except SqlxError Unit)) : Done F :=
  match F.finished state with
  | .inl _ => { output := .error .endMismatch, report := none }
  | .inr (.commit output report) =>
    match commit with
    | some (.ok ()) => ⟨.ok (.committed output), some (.committed report)⟩
    | some (.error (.database error)) =>
      ⟨.error (.commitRejected (.database error)), some (.rolledBack report)⟩
    | some (.error error) => ⟨.error (.commitUnknown error), some (.commitUnknown report)⟩
    | none =>
      if aborted then ⟨.error .aborted, some (.rolledBack report)⟩
      else ⟨.error .endMismatch, some (.rolledBack report)⟩
  | .inr (.rollback output report) =>
    match commit with
    | none => ⟨.ok (.rolledBack output), some (.rolledBack report)⟩
    | some (.ok ()) => ⟨.error .endMismatch, some (.committed report)⟩
    | some (.error (.database _)) => ⟨.error .endMismatch, some (.rolledBack report)⟩
    | some (.error _) => ⟨.error .endMismatch, some (.commitUnknown report)⟩

/-- The open transaction and the state to step, or how the transaction ended. -/
def TxState.intoOpen (s : TxState F) : (Tx × F.State) ⊕ Done F :=
  if s.isOpen then .inl (⟨s.aborted⟩, s.state) else .inr (close s.state s.aborted s.commit)

/-- One call of `TxFlow::step` on an open transaction. -/
def StepProg.exec (server : Server F) : StepProg F.toQueries F.State → Tx → Session (TxEvent F) (TxState F)
  | .run query next, tx => do
    let (tx, result) ← tx.run server query
    (next result).exec server tx
  | .isAborted next, tx => (next tx.aborted).exec server tx
  | .withState state, tx => return tx.withState state
  | .endState state, tx => tx.endState server state

/-- `F::step(tx, state)`. -/
def step (server : Server F) (tx : Tx) (state : F.State) : Session (TxEvent F) (TxState F) := do
  emit (.step state)
  (F.step state).exec server tx

/-- The loop of `drive`, for at most `fuel` rounds. -/
def driveLoop (server : Server F) : ℕ → Tx → F.State → Session (TxEvent F) (Option (Done F))
  | 0, _, _ => return none
  | fuel + 1, tx, state => do
    match (← tx.endState server state).intoOpen with
    | .inr done => return some done
    | .inl (tx, state) =>
      match (← step server tx state).intoOpen with
      | .inr done => return some done
      | .inl (tx, state) => driveLoop server fuel tx state

/-- `SqlxBackend::begin`: the statements one after another, up to the first error. -/
def begin (server : Server F) : List String → Session (TxEvent F) (Except SqlxError Unit)
  | [] => return .ok ()
  | statement :: rest => do
    match ← call (server.begin · statement) (.begin statement) with
    | .error error => return .error error
    | .ok () => begin server rest

/-- Run `flow` on a connection: end it if its state is terminal, else step it, until it ends. -/
def drive (server : Server F) (fuel : ℕ) (flow : F.State) : Session (TxEvent F) (Option (Done F)) := do
  match ← call server.acquire .acquire with
  | .error error => return some (.notBegun error)
  | .ok () =>
    match ← begin server (F.database.begin (mode F)) with
    | .error error => return some (.notBegun error)
    | .ok () => driveLoop server fuel ⟨false⟩ flow

/-! ### The hook on the end of a transaction -/

/-- Runs `hook` on the final state of each transaction. A hook error goes to `onError`, which never
fails, so of a hook only whether it fails can be seen. -/
structure AfterTransaction (F : TxFlow) where
  inner : Server F
  hookFails : List (TxEvent F) → TxFinalState F.Report → Bool

/-- Run the hook on a final state, if there is one, and `onError` on its error. -/
def AfterTransaction.runHook (after : AfterTransaction F) :
    Option (TxFinalState F.Report) → Session (TxEvent F) Unit
  | none => return ()
  | some state => do
    if ← call (after.hookFails · state) fun _ => .hook state then
      emit .onError

def AfterTransaction.process (after : AfterTransaction F) (fuel : ℕ) (flow : F.State) :
    Session (TxEvent F) (Option (Except TxError (TxOutput F.Commit F.Abort))) := do
  match ← drive after.inner fuel flow with
  | none => return none
  | some done =>
    after.runHook done.report
    return some done.output

end Wakuwaku.Entity.Sqlx.Transaction
