import Wakuwaku.Entity.Sqlx.Transaction.Ends

/-! # A transaction stays within its declaration

`Tx::run` takes a query only if the capability of the flow covers the query's effect, and a handle
runs a flow only if its capability covers the flow's effect. Both are written from one list by
`tx_effect!`, so a run has no query that the handle does not cover (`Within`, `adds_process`), and no
writing query if it began `READ ONLY`. -/

namespace Wakuwaku.Entity.Sqlx.Transaction

open Wakuwaku.Session

/-! ### The bound on `Tx::run` -/

/-- The capability covers the effect of every query the body of a step can run. -/
def StepProg.Within {Q : Queries} {S E : Type} (C : Capability E) (effect : Q.Query → Effect E) :
    StepProg Q S → Prop
  | .run query next => C.Covers (effect query) ∧ ∀ result, (next result).Within C effect
  | .isAborted next => ∀ aborted, (next aborted).Within C effect
  | .withState _ | .endState _ => True

/-- A flow that compiles: the queries its steps run stay within the declared capability. -/
structure CheckedFlow extends TxFlow where
  effect : Query → Effect Entities
  within : ∀ state, (step state).Within (declared capability) effect

variable {F : CheckedFlow}

/-- A query event has an effect the flow's capability covers. -/
def TxEvent.Covered (event : TxEvent F.toTxFlow) : Prop :=
  ∀ query result, event = .query query result → (declared F.capability).Covers (F.effect query)

theorem covered_of_isQuery {event : TxEvent F.toTxFlow}
    (h : ∀ query result, event ≠ .query query result) : event.Covered :=
  fun query result he => absurd he (h query result)

/-! ### What each function runs -/

section Server

variable (server : Server F.toTxFlow)

theorem adds_run (tx : Tx) {query : F.Query} (h : (declared F.capability).Covers (F.effect query)) :
    Adds TxEvent.Covered (tx.run server query) := by
  unfold Tx.run
  by_cases ha : tx.aborted = true
  · rw [if_pos ha]
    exact adds_pure
  · rw [if_neg ha]
    refine (adds_call fun result => ?_).bind fun _ => adds_pure
    rintro _ _ ⟨⟩
    exact h

theorem adds_close (tx : Tx) (last : TxEnd F.Commit F.Abort F.Report) :
    Adds TxEvent.Covered (tx.close server last) := by
  have hr : Adds TxEvent.Covered (call server.rollback .rollback) :=
    adds_call fun _ => covered_of_isQuery (by simp)
  have hc : Adds TxEvent.Covered (call server.commit .commit) :=
    adds_call fun _ => covered_of_isQuery (by simp)
  unfold Tx.close
  cases last with
  | rollback output report => exact hr.bind fun _ => adds_pure
  | commit output report =>
    cases tx.aborted with
    | true => exact hr.bind fun _ => adds_pure
    | false => exact hc.bind fun _ => adds_pure

theorem adds_endState (tx : Tx) (state : F.State) :
    Adds TxEvent.Covered (tx.endState server state) := by
  unfold Tx.endState
  cases F.finished state with
  | inl s => exact adds_pure
  | inr last =>
    refine (adds_emit (covered_of_isQuery (by simp))).bind fun _ => ?_
    exact (adds_close server tx last).bind fun _ => adds_pure

theorem adds_exec : ∀ (body : StepProg F.toQueries F.State) (tx : Tx),
    body.Within (declared F.capability) F.effect → Adds TxEvent.Covered (body.exec server tx)
  | .run _ next, tx, h =>
    (adds_run server tx h.1).bind fun r => adds_exec (next r.2) r.1 (h.2 r.2)
  | .isAborted next, tx, h => adds_exec (next tx.aborted) tx (h tx.aborted)
  | .withState _, _, _ => adds_pure
  | .endState state, tx, _ => adds_endState server tx state

theorem adds_step (tx : Tx) (state : F.State) : Adds TxEvent.Covered (step server tx state) :=
  (adds_emit (covered_of_isQuery (by simp))).bind fun _ =>
    adds_exec server (F.step state) tx (F.within state)

theorem adds_driveLoop : ∀ (fuel : ℕ) (tx : Tx) (state : F.State),
    Adds TxEvent.Covered (driveLoop server fuel tx state)
  | 0, _, _ => adds_pure
  | fuel + 1, tx, state => by
    unfold driveLoop
    refine (adds_endState server tx state).bind fun s => ?_
    cases s.intoOpen with
    | inr done => exact adds_pure
    | inl next =>
      refine (adds_step server next.1 next.2).bind fun s => ?_
      cases s.intoOpen with
      | inr done => exact adds_pure
      | inl next => exact adds_driveLoop fuel next.1 next.2

theorem adds_begin : ∀ statements : List String, Adds TxEvent.Covered (begin server statements)
  | [] => adds_pure
  | statement :: rest => by
    refine (adds_call fun _ => covered_of_isQuery (by simp)).bind fun result => ?_
    cases result with
    | error error => exact adds_pure
    | ok => exact adds_begin rest

theorem adds_drive (fuel : ℕ) (flow : F.State) : Adds TxEvent.Covered (drive server fuel flow) := by
  refine (adds_call fun _ => covered_of_isQuery (by simp)).bind fun result => ?_
  cases result with
  | error error => exact adds_pure
  | ok =>
    refine (adds_begin server _).bind fun result => ?_
    cases result with
    | error error => exact adds_pure
    | ok => exact adds_driveLoop server fuel ⟨false⟩ flow

end Server

theorem adds_runHook (after : AfterTransaction F.toTxFlow) (report : Option (TxFinalState F.Report)) :
    Adds TxEvent.Covered (after.runHook report) := by
  cases report with
  | none => exact adds_pure
  | some state =>
    refine (adds_call fun _ => covered_of_isQuery (by simp)).bind fun fails => ?_
    cases fails with
    | true => exact adds_emit (covered_of_isQuery (by simp))
    | false => exact adds_pure

theorem adds_process (after : AfterTransaction F.toTxFlow) (fuel : ℕ) (flow : F.State) :
    Adds TxEvent.Covered (after.process fuel flow) := by
  refine (adds_drive after.inner fuel flow).bind fun result => ?_
  cases result with
  | none => exact adds_pure
  | some done => exact (adds_runHook after done.report).bind fun _ => adds_pure

/-! ### The result -/

theorem readOnly_mode_iff {F : TxFlow} :
    (mode F).readOnly = true ↔ ∀ e, .write e ∉ F.capability := by
  have h := writes_kind_txEffect F.capability
  simp only [mode, Bool.not_eq_true', ← Bool.not_eq_true, h, not_exists]

/-- What a declaration covers is covered by every capability that covers its effect, and writes
nothing unless the declaration does. So a run sends no query the handle does not cover, and none
that writes if the transaction began `READ ONLY`. -/
theorem covered_by_handle :
    (∀ (E : Type) (accesses : List (Access E)) (x : Effect E), (declared accesses).Covers x →
      (∀ C : Capability E, C.Covers (txEffect accesses) → C.Covers x) ∧
        ((∀ e, .write e ∉ accesses) → ∀ e, ¬ (Access.write e).In x)) ∧
    (∀ (F : CheckedFlow) (after : AfterTransaction F.toTxFlow) (fuel : ℕ) (flow : F.State)
      (query : F.Query) (result : F.Result query),
      (.query query result ∈ ((drive after.inner fuel flow).run []).2 ∨
        .query query result ∈ ((after.process fuel flow).run []).2) →
      (∀ C : Capability F.Entities, C.Covers (txEffect F.capability) → C.Covers (F.effect query)) ∧
        ((mode F.toTxFlow).readOnly = true → ∀ e, ¬ (Access.write e).In (F.effect query))) ∧
    (∀ F : TxFlow, (mode F).readOnly = true ↔ ∀ e, .write e ∉ F.capability) ∧
    ∀ (E : Type) (x : Effect E), x.kind.writes = true ↔ ∃ e, (Access.write e).In x := by
  have hsilent : ∀ (E : Type) (accesses : List (Access E)) (x : Effect E),
      (declared accesses).Covers x → (∀ e, .write e ∉ accesses) → ∀ e, ¬ (Access.write e).In x :=
    fun E accesses x hx hw e he => hw e (mem_of_in_of_declared hx he)
  refine ⟨fun E accesses x hx => ⟨fun C => covers_of_declared hx, hsilent E accesses x hx⟩, ?_,
    fun F => readOnly_mode_iff, fun E x => writes_kind_iff⟩
  intro F after fuel flow query result hm
  have hx : (declared F.capability).Covers (F.effect query) := by
    rcases hm with hm | hm
    · exact (adds_drive after.inner fuel flow).run _ hm query result rfl
    · exact (adds_process after fuel flow).run _ hm query result rfl
  exact ⟨fun C => covers_of_declared hx,
    fun hr => hsilent _ F.capability _ hx (readOnly_mode_iff.mp hr)⟩

/-- Looks up accounts and then ends. -/
def lookup : CheckedFlow where
  toTxFlow := { Ends.bonus with capability := [.read "account", .read "user"] }
  effect _ := .tuple (.tuple (.read "account") .unit) (.tuple (.read "user") .unit)
  within _ := by
    refine ⟨⟨⟨Or.inl (by simp), trivial⟩, Or.inl (by simp), trivial⟩, fun result => ?_⟩
    cases result <;> trivial

/-- A database that answers every request of `lookup`. -/
def accounts : AfterTransaction lookup.toTxFlow where
  inner := ⟨fun _ => .ok (), fun _ _ => .ok (), fun _ _ => .ok (1 : ℕ), fun _ => .ok (), fun _ => .ok ()⟩
  hookFails _ _ := false

theorem covered_by_handle_lookup :
    readWrite.Covers (.tuple (.read "account") (.tuple (.write "account") .unit)) ∧
    readOnly.Covers (lookup.effect ()) ∧ ∀ e, ¬ (Access.write e).In (lookup.effect ()) := by
  obtain ⟨hdeclared, hrun, -⟩ := covered_by_handle
  have hx : (declared [.write "account"]).Covers
      (.tuple (.read "account") (.tuple (.write "account") .unit)) :=
    ⟨Or.inr (by simp), by simp [Capability.Covers, declared]⟩
  have hm : .query () (.ok (1 : ℕ)) ∈ ((accounts.process 2 none).run []).2 :=
    List.mem_of_getElem? (i := 3) rfl
  obtain ⟨hC, hw⟩ := hrun lookup accounts 2 none () (.ok (1 : ℕ)) (Or.inr hm)
  refine ⟨(hdeclared _ _ _ hx).1 readWrite ⟨trivial, trivial, trivial⟩, ?_, hw rfl⟩
  exact hC readOnly ⟨trivial, ⟨trivial, trivial, trivial⟩, trivial⟩

end Wakuwaku.Entity.Sqlx.Transaction
