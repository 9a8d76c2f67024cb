import Wakuwaku.Async

/-! # Predicates and their checks

A predicate is checked for a subject in a context. Its check awaits and then returns evidence, a denial,
or an error that left it undecided. `And` and `Or` compose predicates; the order of a check says whether
their operands are checked one after another or side by side. -/

namespace Wakuwaku.Proof

variable {ε : Type}

/-- Why a predicate rejected its subject. -/
structure DeniedReason where
  text : String

/-- Failure of a check. -/
inductive ValidateError (E : Type) where
  /-- The proposition could not be decided. -/
  | ioError (error : E)
  /-- The proposition was decided and does not hold for the subject. -/
  | deny (reason : DeniedReason)

/-- How combinators evaluate their operands. -/
inductive CheckOrder where
  | parallel
  | sequential
deriving DecidableEq

/-- Evidence of a conjunction. -/
structure And (A B : Type) where
  left : A
  right : B

/-- Evidence of a disjunction: that of the operands known to hold. -/
inductive Or (A B : Type) where
  | left (a : A)
  | right (b : B)
  | both (a : A) (b : B)

/-- A subject with the evidence that a predicate held for it. -/
structure Proven (T P : Type) where
  subject : T
  evidence : P

/-- A proposition about `T`, with the types of its context, of its I/O errors and of its evidence. A leaf
awaits what it likes and then answers. A combinator converts its own context to that of its right operand;
`and` also converts the errors of that operand. -/
inductive Predicate (ε T : Type) : Type → Type → Type → Type 1 where
  | leaf {Ctx E P : Type} (awaits : T → Ctx → CheckOrder → Async ε Unit)
    (answer : T → Ctx → CheckOrder → Except (ValidateError E) P) : Predicate ε T Ctx E P
  | and {Ctx E P Ctx' E' P' : Type} (a : Predicate ε T Ctx E P) (b : Predicate ε T Ctx' E' P')
    (ctxB : Ctx → Ctx') (intoError : E' → E) : Predicate ε T Ctx E (And P P')
  | or {Ctx E P Ctx' E' P' : Type} (a : Predicate ε T Ctx E P) (b : Predicate ε T Ctx' E' P')
    (ctxB : Ctx → Ctx') : Predicate ε T Ctx E (Or P P')

/-- A leaf that answers `r` at once. -/
def Predicate.answering {T Ctx E P : Type} (r : Except (ValidateError E) P) : Predicate ε T Ctx E P :=
  .leaf (fun _ _ _ => pure ()) fun _ _ _ => r

/-- An error of a right operand, as one of the conjunction. -/
def ValidateError.convert {E E' : Type} (intoError : E' → E) : ValidateError E' → ValidateError E
  | .deny reason => .deny reason
  | .ioError error => .ioError (intoError error)

/-- `And::check`, from what the operands returned. -/
def And.evidence {E E' P P' : Type} (intoError : E' → E) (a : P) (b : Except (ValidateError E') P') :
    Except (ValidateError E) (And P P') := do
  let b ← b.mapError (·.convert intoError)
  return ⟨a, b⟩

@[simp] theorem And.evidence_ok {E E' P P' : Type} (intoError : E' → E) (a : P) (b : P') :
    And.evidence intoError a (.ok b) = .ok ⟨a, b⟩ := rfl

@[simp] theorem And.evidence_error {E E' P P' : Type} (intoError : E' → E) (a : P) (e : ValidateError E') :
    (And.evidence intoError a (.error e) : Except _ (And P P')) = .error (e.convert intoError) := rfl

/-- `Or::check`, from what the operands returned. -/
def Or.evidence {E E' P P' : Type} :
    Except (ValidateError E) P → Except (ValidateError E') P' → Except (ValidateError E) (Or P P')
  | .ok a, .ok b => .ok (.both a b)
  | .ok a, .error _ => .ok (.left a)
  | .error _, .ok b => .ok (.right b)
  | .error e, .error _ => .error e

/-- `Predicate::check`. -/
def Predicate.check {T Ctx E P : Type} : Predicate ε T Ctx E P → T → Ctx → CheckOrder →
    Async ε (Except (ValidateError E) P)
  | .leaf awaits answer, s, ctx, order => do
    awaits s ctx order
    return answer s ctx order
  | .and a b ctxB intoError, s, ctx, .parallel => do
    -- both run to completion, also when one fails early
    let (a, b) ← Async.join (a.check s ctx .parallel) (b.check s (ctxB ctx) .parallel)
    match a with
    | .error e => return .error e
    | .ok a => return And.evidence intoError a b
  | .and a b ctxB intoError, s, ctx, .sequential => do
    match ← a.check s ctx .sequential with
    | .error e => return .error e
    | .ok a =>
      let b ← b.check s (ctxB ctx) .sequential
      return And.evidence intoError a b
  | .or a b ctxB, s, ctx, .parallel => do
    let (a, b) ← Async.join (a.check s ctx .parallel) (b.check s (ctxB ctx) .parallel)
    return Or.evidence a b
  | .or a b ctxB, s, ctx, .sequential => do
    let a ← a.check s ctx .sequential
    let b ← b.check s (ctxB ctx) .sequential
    return Or.evidence a b

/-- Checks a predicate against `subject` and, if it holds, wraps the subject and the evidence. -/
def prove {T Ctx E P : Type} (subject : T) (p : Predicate ε T Ctx E P) (ctx : Ctx) (order : CheckOrder) :
    Async ε (Except (ValidateError E) (Proven T P)) := do
  match ← p.check subject ctx order with
  | .error e => return .error e
  | .ok evidence => return .ok ⟨subject, evidence⟩

/-! ### What a check returns -/

variable {T Ctx Ctx' E E' P P' : Type} {t : List ε} {s : T} {ctx : Ctx} {order : CheckOrder}

theorem check_leaf {awaits : T → Ctx → CheckOrder → Async ε Unit}
    {answer : T → Ctx → CheckOrder → Except (ValidateError E) P} {r : Except (ValidateError E) P}
    (h : (Predicate.leaf awaits answer).check s ctx order t (some r)) : r = answer s ctx order := by
  obtain ⟨-, u, v, -, hv, -⟩ := Async.bind_iff.mp h
  exact (Async.pure_iff.mp hv).2

section Operands

variable {a : Predicate ε T Ctx E P} {b : Predicate ε T Ctx' E' P'} {ctxB : Ctx → Ctx'}

/-- A conjunction returns the error of its left operand, if that fails. -/
theorem check_and {intoError : E' → E} {r : Except (ValidateError E) (And P P')}
    (h : (Predicate.and a b ctxB intoError).check s ctx order t (some r)) :
    (∃ u e, a.check s ctx order u (some (.error e)) ∧ r = .error e) ∨
    ∃ u v x y, a.check s ctx order u (some (.ok x)) ∧ b.check s (ctxB ctx) order v (some y) ∧
      r = And.evidence intoError x y := by
  cases order with
  | parallel =>
    obtain ⟨⟨x, y⟩, u, v, hxy, hr, -⟩ := Async.bind_iff.mp h
    obtain ⟨u₁, u₂, hx, hy, -⟩ := Async.join_iff.mp hxy
    cases x with
    | error e => exact .inl ⟨u₁, e, hx, (Async.pure_iff.mp hr).2⟩
    | ok x => exact .inr ⟨u₁, u₂, x, y, hx, hy, (Async.pure_iff.mp hr).2⟩
  | sequential =>
    obtain ⟨x, u, v, hx, hr, -⟩ := Async.bind_iff.mp h
    cases x with
    | error e => exact .inl ⟨u, e, hx, (Async.pure_iff.mp hr).2⟩
    | ok x =>
      obtain ⟨y, v₁, v₂, hy, hr, -⟩ := Async.bind_iff.mp hr
      exact .inr ⟨u, v₁, x, y, hx, hy, (Async.pure_iff.mp hr).2⟩

/-- A disjunction checks both operands. -/
theorem check_or {r : Except (ValidateError E) (Or P P')}
    (h : (Predicate.or a b ctxB).check s ctx order t (some r)) :
    ∃ u v x y, a.check s ctx order u (some x) ∧ b.check s (ctxB ctx) order v (some y) ∧
      r = Or.evidence x y := by
  cases order with
  | parallel =>
    obtain ⟨⟨x, y⟩, u, v, hxy, hr, -⟩ := Async.bind_iff.mp h
    obtain ⟨u₁, u₂, hx, hy, -⟩ := Async.join_iff.mp hxy
    exact ⟨u₁, u₂, x, y, hx, hy, (Async.pure_iff.mp hr).2⟩
  | sequential =>
    obtain ⟨x, u, v, hx, hr, -⟩ := Async.bind_iff.mp h
    obtain ⟨y, v₁, v₂, hy, hr, -⟩ := Async.bind_iff.mp hr
    exact ⟨u, v₁, x, y, hx, hy, (Async.pure_iff.mp hr).2⟩

end Operands

/-- A proof carries the evidence of the check, an error is that of the check. -/
theorem prove_iff {p : Predicate ε T Ctx E P} {r : Except (ValidateError E) (Proven T P)} :
    prove s p ctx order t (some r) ↔
      ∃ x, p.check s ctx order t (some x) ∧ r = x.map fun evidence => ⟨s, evidence⟩ := by
  unfold prove
  rw [Async.bind_iff]
  constructor
  · rintro ⟨x, u, v, hx, hr, rfl⟩
    cases x with
    | error e =>
      obtain ⟨rfl, rfl⟩ := Async.pure_iff.mp hr
      exact ⟨_, by rwa [List.append_nil], rfl⟩
    | ok x =>
      obtain ⟨rfl, rfl⟩ := Async.pure_iff.mp hr
      exact ⟨_, by rwa [List.append_nil], rfl⟩
  · rintro ⟨x, hx, rfl⟩
    cases x with
    | error e => exact ⟨_, t, [], hx, Async.pure_iff.mpr ⟨rfl, rfl⟩, (List.append_nil t).symm⟩
    | ok x => exact ⟨_, t, [], hx, Async.pure_iff.mpr ⟨rfl, rfl⟩, (List.append_nil t).symm⟩

end Wakuwaku.Proof
