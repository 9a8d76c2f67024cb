import Wakuwaku.Proof.Predicate

/-! # Checks in either order

The two orders of a check stop at different points when an operand fails. Where the answers of the leaves
do not depend on the order, what is returned does not either: it is the outcome that the operands
determine. -/

namespace Wakuwaku.Proof

variable {ε T Ctx Ctx' E E' P P' : Type} {t t' : List ε} {s : T} {ctx : Ctx} {order : CheckOrder}

/-- The answers of the leaves do not depend on the order of the check. -/
def Predicate.OrderFree {T Ctx E P : Type} : Predicate ε T Ctx E P → Prop
  | .leaf _ answer => ∀ s ctx order order', answer s ctx order = answer s ctx order'
  | .and a b _ _ => a.OrderFree ∧ b.OrderFree
  | .or a b _ => a.OrderFree ∧ b.OrderFree

/-- Every leaf can return. -/
def Predicate.Returns {T Ctx E P : Type} : Predicate ε T Ctx E P → Prop
  | .leaf awaits _ => ∀ s ctx order, ∃ t, awaits s ctx order t (some ())
  | .and a b _ _ => a.Returns ∧ b.Returns
  | .or a b _ => a.Returns ∧ b.Returns

/-- What the operands determine: the evidence of both sides of a conjunction, or the error of the first
that fails, converted if that is the right one; the evidence of every side of a disjunction that holds, or
the error of the left. -/
def Predicate.outcome {T Ctx E P : Type} : Predicate ε T Ctx E P → T → Ctx → Except (ValidateError E) P
  | .leaf _ answer, s, ctx => answer s ctx .sequential
  | .and a b ctxB intoError, s, ctx =>
    match a.outcome s ctx, b.outcome s (ctxB ctx) with
    | .error e, _ => .error e
    | .ok _, .error (.deny reason) => .error (.deny reason)
    | .ok _, .error (.ioError error) => .error (.ioError (intoError error))
    | .ok a, .ok b => .ok ⟨a, b⟩
  | .or a b ctxB, s, ctx =>
    match a.outcome s ctx, b.outcome s (ctxB ctx) with
    | .error e, .error _ => .error e
    | .error _, .ok b => .ok (.right b)
    | .ok a, .error _ => .ok (.left a)
    | .ok a, .ok b => .ok (.both a b)

section Operands

variable {a : Predicate ε T Ctx E P} {b : Predicate ε T Ctx' E' P'} {ctxB : Ctx → Ctx'} {intoError : E' → E}

theorem outcome_and_error {e : ValidateError E} (ha : a.outcome s ctx = .error e) :
    (Predicate.and a b ctxB intoError).outcome s ctx = .error e := by
  unfold Predicate.outcome
  rw [ha]

theorem outcome_and_ok {x : P} (ha : a.outcome s ctx = .ok x) :
    (Predicate.and a b ctxB intoError).outcome s ctx =
      And.evidence intoError x (b.outcome s (ctxB ctx)) := by
  rw [Predicate.outcome, ha]
  rcases b.outcome s (ctxB ctx) with (_ | _) | _ <;> rfl

theorem outcome_or : (Predicate.or a b ctxB).outcome s ctx =
    Or.evidence (a.outcome s ctx) (b.outcome s (ctxB ctx)) := by
  rw [Predicate.outcome]
  rcases a.outcome s ctx with _ | _ <;> rcases b.outcome s (ctxB ctx) with _ | _ <;> rfl

end Operands

/-- What a check returns, in either order, is the outcome. -/
theorem eq_outcome_of_check {T Ctx E P : Type} : ∀ {p : Predicate ε T Ctx E P}, p.OrderFree →
    ∀ {s : T} {ctx : Ctx} {order : CheckOrder} {t : List ε} {r : Except (ValidateError E) P},
      p.check s ctx order t (some r) → r = p.outcome s ctx
  | .leaf _ answer, hp, s, ctx, order, t, r, h => by
    rw [check_leaf h]
    exact hp s ctx order .sequential
  | .and a b ctxB intoError, hp, s, ctx, order, t, r, h => by
    obtain ⟨hfree, hfree'⟩ := hp
    rcases check_and h with ⟨u, e, ha, rfl⟩ | ⟨u, v, x, y, ha, hb, rfl⟩
    · rw [outcome_and_error (eq_outcome_of_check hfree ha).symm]
    · rw [outcome_and_ok (eq_outcome_of_check hfree ha).symm, eq_outcome_of_check hfree' hb]
  | .or a b ctxB, hp, s, ctx, order, t, r, h => by
    obtain ⟨hfree, hfree'⟩ := hp
    obtain ⟨u, v, x, y, ha, hb, rfl⟩ := check_or h
    rw [outcome_or, eq_outcome_of_check hfree ha, eq_outcome_of_check hfree' hb]

/-- A check whose leaves can return can return, in either order. -/
theorem canReturn_check {T Ctx E P : Type} : ∀ {p : Predicate ε T Ctx E P}, p.Returns →
    ∀ (s : T) (ctx : Ctx) (order : CheckOrder),
      Async.CanReturn (fun _ => True) (fun _ => True) (p.check s ctx order)
  | .leaf awaits answer, hp, s, ctx, order => by
    obtain ⟨t, ht⟩ := hp s ctx order
    have hawaits : Async.CanReturn (fun _ => True) (fun _ => True) (awaits s ctx order) :=
      ⟨t, (), ht, fun _ _ => trivial, trivial⟩
    exact hawaits.bind fun _ _ => Async.canReturn_pure trivial
  | .and a b ctxB intoError, hp, s, ctx, order => by
    obtain ⟨hreturns, hreturns'⟩ := hp
    have ha := canReturn_check hreturns s ctx order
    have hb := canReturn_check hreturns' s (ctxB ctx) order
    cases order with
    | parallel =>
      refine (Async.canReturn_join ha hb).bind ?_
      rintro ⟨_ | x, y⟩ -
      · exact Async.canReturn_pure trivial
      · exact Async.canReturn_pure trivial
    | sequential =>
      refine ha.bind ?_
      rintro (_ | x) -
      · exact Async.canReturn_pure trivial
      · exact hb.bind fun _ _ => Async.canReturn_pure trivial
  | .or a b ctxB, hp, s, ctx, order => by
    obtain ⟨hreturns, hreturns'⟩ := hp
    have ha := canReturn_check hreturns s ctx order
    have hb := canReturn_check hreturns' s (ctxB ctx) order
    cases order with
    | parallel => exact (Async.canReturn_join ha hb).bind fun _ _ => Async.canReturn_pure trivial
    | sequential => exact ha.bind fun _ _ => hb.bind fun _ _ => Async.canReturn_pure trivial

/-- **The order of a check never changes its result**: both orders return the outcome that the operands
determine, and if the leaves can return, both can. -/
theorem check_order_irrelevant {p : Predicate ε T Ctx E P} (hp : p.OrderFree) (s : T) (ctx : Ctx) :
    (∀ t t' r r', p.check s ctx .parallel t (some r) → p.check s ctx .sequential t' (some r') →
      r = p.outcome s ctx ∧ r' = p.outcome s ctx) ∧
    (p.Returns → ∀ order, ∃ t, p.check s ctx order t (some (p.outcome s ctx))) := by
  refine ⟨fun t t' r r' h h' => ⟨eq_outcome_of_check hp h, eq_outcome_of_check hp h'⟩, fun hreturns order => ?_⟩
  obtain ⟨t, r, h, -⟩ := canReturn_check hreturns s ctx order
  exact ⟨t, eq_outcome_of_check hp h ▸ h⟩

/-- A conjunction of a disjunction that holds on the right and a leaf that fails. -/
theorem check_order_irrelevant_nested :
    let p : Predicate ℕ String Unit String (And (Or Unit Unit) Unit) :=
      .and (.or (.answering (.error (.deny ⟨"banned"⟩))) (.answering (.ok () : Except (ValidateError String) Unit)) id)
        (.answering (.error (.ioError 7) : Except (ValidateError ℕ) Unit)) id toString
    p.outcome "haruki" () = .error (.ioError "7") ∧
    (∀ t t' r r', p.check "haruki" () .parallel t (some r) → p.check "haruki" () .sequential t' (some r') →
      r = p.outcome "haruki" () ∧ r' = p.outcome "haruki" ()) ∧
    (p.Returns → ∀ order, ∃ t, p.check "haruki" () order t (some (p.outcome "haruki" ()))) := by
  intro p
  have hp : p.OrderFree := ⟨⟨fun _ _ _ _ => rfl, fun _ _ _ _ => rfl⟩, fun _ _ _ _ => rfl⟩
  exact ⟨rfl, check_order_irrelevant hp "haruki" ()⟩

end Wakuwaku.Proof
