import Wakuwaku.Proof.Predicate

/-! # What a check decides

A leaf that answered with evidence is true, one that denied is false, and one that failed may be either.
So a proposition has a set of possible truths. A proof is returned exactly if the proposition is true for
all of them. A denial is one exactly if the leaf whose error is returned denied; the proposition may then
still be undecided. -/

namespace Wakuwaku.Proof

variable {ε T Ctx Ctx' E E' P P' : Type} {t : List ε} {s : T} {ctx : Ctx} {order : CheckOrder}

/-- The truths `p` can have, whatever those of its undecided leaves are. -/
def Predicate.Possible {T Ctx E P : Type} : Predicate ε T Ctx E P → T → Ctx → CheckOrder → Bool → Prop
  | .leaf _ answer, s, ctx, order, v =>
    match answer s ctx order with
    | .ok _ => v = true
    | .error (.deny _) => v = false
    | .error (.ioError _) => True
  | .and a b ctxB _, s, ctx, order, v =>
    ∃ x y, a.Possible s ctx order x ∧ b.Possible s (ctxB ctx) order y ∧ v = (x && y)
  | .or a b ctxB, s, ctx, order, v =>
    ∃ x y, a.Possible s ctx order x ∧ b.Possible s (ctxB ctx) order y ∧ v = (x || y)

/-- `p` has the truth `v`, whatever those of its undecided leaves are. -/
def Predicate.Decided (p : Predicate ε T Ctx E P) (s : T) (ctx : Ctx) (order : CheckOrder) (v : Bool) :
    Prop := ∀ w, p.Possible s ctx order w → w = v

/-- The leaf that stands for `p` is undecided: on the left at every disjunction, and at a conjunction on
the left unless the left operand is known to hold. -/
def Predicate.Undecided {T Ctx E P : Type} : Predicate ε T Ctx E P → T → Ctx → CheckOrder → Prop
  | .leaf _ answer, s, ctx, order => ∃ e, answer s ctx order = .error (.ioError e)
  | .and a b ctxB _, s, ctx, order =>
    (a.Decided s ctx order true ∧ b.Undecided s (ctxB ctx) order) ∨
      (¬ a.Decided s ctx order true ∧ a.Undecided s ctx order)
  | .or a _ _, s, ctx, order => a.Undecided s ctx order

/-! ### Possible truths -/

theorem Predicate.exists_possible {T Ctx E P : Type} : ∀ (p : Predicate ε T Ctx E P) (s : T) (ctx : Ctx)
    (order : CheckOrder), ∃ v, p.Possible s ctx order v
  | .leaf _ answer, s, ctx, order => by
    unfold Possible
    cases answer s ctx order with
    | ok _ => exact ⟨true, rfl⟩
    | error e =>
      cases e with
      | deny _ => exact ⟨false, rfl⟩
      | ioError _ => exact ⟨true, trivial⟩
  | .and a b ctxB _, s, ctx, order => by
    obtain ⟨x, hx⟩ := exists_possible a s ctx order
    obtain ⟨y, hy⟩ := exists_possible b s (ctxB ctx) order
    exact ⟨x && y, x, y, hx, hy, rfl⟩
  | .or a b ctxB, s, ctx, order => by
    obtain ⟨x, hx⟩ := exists_possible a s ctx order
    obtain ⟨y, hy⟩ := exists_possible b s (ctxB ctx) order
    exact ⟨x || y, x, y, hx, hy, rfl⟩

section Operands

variable {a : Predicate ε T Ctx E P} {b : Predicate ε T Ctx' E' P'} {ctxB : Ctx → Ctx'}

theorem decided_and_true {intoError : E' → E} :
    (Predicate.and a b ctxB intoError).Decided s ctx order true ↔
      a.Decided s ctx order true ∧ b.Decided s (ctxB ctx) order true := by
  constructor
  · intro h
    obtain ⟨x, hx⟩ := a.exists_possible s ctx order
    obtain ⟨y, hy⟩ := b.exists_possible s (ctxB ctx) order
    have hand : ∀ {x y}, a.Possible s ctx order x → b.Possible s (ctxB ctx) order y → (x && y) = true :=
      fun hx hy => h _ ⟨_, _, hx, hy, rfl⟩
    exact ⟨fun w hw => (Bool.and_eq_true_iff.mp (hand hw hy)).1,
      fun w hw => (Bool.and_eq_true_iff.mp (hand hx hw)).2⟩
  · rintro ⟨ha, hb⟩ w ⟨x, y, hx, hy, rfl⟩
    rw [ha x hx, hb y hy]
    rfl

theorem decided_or_true : (Predicate.or a b ctxB).Decided s ctx order true ↔
    a.Decided s ctx order true ∨ b.Decided s (ctxB ctx) order true := by
  constructor
  · intro h
    by_contra hn
    simp only [not_or, Predicate.Decided, not_forall, Bool.not_eq_true] at hn
    obtain ⟨⟨x, hx, rfl⟩, y, hy, rfl⟩ := hn
    exact absurd (h false ⟨false, false, hx, hy, rfl⟩) (by simp)
  · rintro (ha | hb) w ⟨x, y, hx, hy, rfl⟩
    · rw [ha x hx]
      rfl
    · rw [hb y hy, Bool.or_true]

end Operands

/-! ### Checks -/

/-- A check succeeds exactly if the proposition is known to hold, and its error is an I/O error exactly if
the leaf that stands for the proposition is undecided. -/
theorem check_decides {T Ctx E P : Type} : ∀ {p : Predicate ε T Ctx E P} {s : T} {ctx : Ctx}
    {order : CheckOrder} {t : List ε} {r : Except (ValidateError E) P},
    p.check s ctx order t (some r) →
    ((∃ evidence, r = .ok evidence) ↔ p.Decided s ctx order true) ∧
    ∀ e, r = .error e → ((∃ error, e = .ioError error) ↔ p.Undecided s ctx order)
  | .leaf _ answer, s, ctx, order, t, r, h => by
    rw [check_leaf h]
    unfold Predicate.Decided Predicate.Possible Predicate.Undecided
    rcases answer s ctx order with (_ | _) | _ <;> simp
  | .and a b ctxB intoError, s, ctx, order, t, r, h => by
    rw [decided_and_true]
    unfold Predicate.Undecided
    rcases check_and h with ⟨u, e, ha, rfl⟩ | ⟨u, v, x, y, ha, hb, rfl⟩
    · obtain ⟨hok, herr⟩ := check_decides ha
      have hn : ¬ a.Decided s ctx order true := by simp [← hok]
      simp [hn, ← herr e rfl]
    · have hd : a.Decided s ctx order true := (check_decides ha).1.mp ⟨x, rfl⟩
      obtain ⟨hok, herr⟩ := check_decides hb
      cases y with
      | ok y => simp [hd, ← hok]
      | error e =>
        have hundecided := herr e rfl
        cases e <;> simpa [ValidateError.convert, hd, ← hok] using hundecided
  | .or a b ctxB, s, ctx, order, t, r, h => by
    rw [decided_or_true]
    unfold Predicate.Undecided
    obtain ⟨u, v, x, y, ha, hb, rfl⟩ := check_or h
    obtain ⟨hok, herr⟩ := check_decides ha
    obtain ⟨hok', -⟩ := check_decides hb
    rw [← hok, ← hok']
    cases x <;> cases y <;> simp [Or.evidence]
    simpa using herr

/-- A disjunction of two leaves that answer at once. -/
theorem checks_or_answering (r : Except (ValidateError E) P) (r' : Except (ValidateError E') P')
    (ctxB : Ctx → Ctx') (order : CheckOrder) :
    (Predicate.or (.answering r) (.answering r') ctxB : Predicate ε T Ctx E (Or P P')).check s ctx order []
      (some (Or.evidence r r')) := by
  have hleaf : ∀ {Ctx E P : Type} (r : Except (ValidateError E) P) (ctx : Ctx),
      (Predicate.answering r : Predicate ε T Ctx E P).check s ctx order [] (some r) := fun r ctx =>
    Async.bind_iff.mpr ⟨(), [], [], Async.pure_iff.mpr ⟨rfl, rfl⟩, Async.pure_iff.mpr ⟨rfl, rfl⟩, rfl⟩
  cases order with
  | parallel =>
    exact Async.bind_iff.mpr ⟨(r, r'), [], [], Async.join_iff.mpr ⟨[], [], hleaf r ctx,
      hleaf r' (ctxB ctx), .nil⟩, Async.pure_iff.mpr ⟨rfl, rfl⟩, rfl⟩
  | sequential =>
    refine Async.bind_iff.mpr ⟨r, [], [], hleaf r ctx, ?_, rfl⟩
    exact Async.bind_iff.mpr ⟨r', [], [], hleaf r' (ctxB ctx), Async.pure_iff.mpr ⟨rfl, rfl⟩, rfl⟩

/-- What is returned is right: a proof of what is true for every truth of the undecided leaves, a denial
of what is false for every one. -/
def Right (p : Predicate ε T Ctx E P) (s : T) (ctx : Ctx) (order : CheckOrder)
    (r : Except (ValidateError E) (Proven T P)) : Prop :=
  (∀ proof, r = .ok proof → p.Decided s ctx order true) ∧
    ∀ reason, r = .error (.deny reason) → p.Decided s ctx order false

/-- `prove` is right exactly if the proposition is decided, or the leaf that stands for it is not. -/
theorem prove_right_iff (p : Predicate ε T Ctx E P) (s : T) (ctx : Ctx) (order : CheckOrder) {t : List ε}
    {r : Except (ValidateError E) (Proven T P)} (h : prove s p ctx order t (some r)) :
    Right p s ctx order r ↔ p.Decided s ctx order true ∨ p.Decided s ctx order false ∨
      p.Undecided s ctx order := by
  obtain ⟨x, hx, rfl⟩ := prove_iff.mp h
  obtain ⟨hok, herr⟩ := check_decides hx
  unfold Right
  cases x with
  | ok evidence => simp [Except.map, ← hok]
  | error e =>
    have hn : ¬ p.Decided s ctx order true := by simp [← hok]
    have hundecided := herr e rfl
    cases e with
    | ioError error => simp [Except.map, ← hundecided]
    | deny reason => simp [Except.map, hn, ← hundecided]

/-- A disjunction whose right operand alone holds. -/
theorem prove_right_iff_right :
    let p : Predicate ℕ String Unit String (Or Unit Unit) :=
      .or (.answering (.error (.deny ⟨"banned"⟩))) (.answering (.ok () : Except (ValidateError String) Unit)) id
    Right p "haruki" () .sequential (.ok ⟨"haruki", .right ()⟩) ↔
      p.Decided "haruki" () .sequential true ∨ p.Decided "haruki" () .sequential false ∨
        p.Undecided "haruki" () .sequential :=
  prove_right_iff _ _ _ _ (t := []) (prove_iff.mpr ⟨_, checks_or_answering _ _ _ _, rfl⟩)

/-- A subject is denied although the right operand may hold. -/
theorem prove_denies_undecided :
    let p : Predicate ℕ String Unit String (Or Unit Unit) :=
      .or (.answering (.error (.deny ⟨"banned"⟩)))
        (.answering (.error (.ioError "unreachable") : Except (ValidateError String) Unit)) id
    ∀ order, prove "haruki" p () order [] (some (.error (.deny ⟨"banned"⟩))) ∧
      ¬ Right p "haruki" () order (.error (.deny ⟨"banned"⟩)) := by
  intro p order
  refine ⟨prove_iff.mpr ⟨.error (.deny ⟨"banned"⟩), checks_or_answering _ _ _ _, rfl⟩, fun h => ?_⟩
  have hdecided : p.Decided "haruki" () order false := h.2 ⟨"banned"⟩ rfl
  have htrue : p.Possible "haruki" () order true := ⟨false, true, rfl, trivial, rfl⟩
  cases hdecided true htrue

end Wakuwaku.Proof
