import Wakuwaku.Proof.Predicate

/-! # Laws of Boolean algebra

A law rewrites a proof of one proposition into a proof of another, without a check. Its evidence is put
together from the evidence it is given. -/

namespace Wakuwaku.Proof

variable {T A B C : Type}

/-- Types whose values can be duplicated. -/
class Clone (A : Type) where
  clone : A → A

export Clone (clone)

/-- The proof of `Q` about the same subject, with evidence made from that of `P`. -/
@[simp] def Proven.mapEvidence {P Q : Type} (proof : Proven T P) (f : P → Q) : Proven T Q :=
  ⟨proof.subject, f proof.evidence⟩

/-- Whenever `P` holds for a subject, `Q` holds for it too, by the law that `R` names. -/
class TermDerive (T P Q R : Type) where
  termDerive : Proven T P → Proven T Q

/-- Converts a proof of `P` into one of `Q` along the law `R`. -/
@[simp] def Proven.derive {P : Type} (Q R : Type) [TermDerive T P Q R] (proof : Proven T P) : Proven T Q :=
  TermDerive.termDerive R proof

/-! ### The rules -/

/-- `A ∧ B ⇒ B ∧ A` and `A ∨ B ⇒ B ∨ A`. -/
inductive Commute

instance : TermDerive T (And A B) (And B A) Commute where
  termDerive proof := proof.mapEvidence fun ⟨a, b⟩ => ⟨b, a⟩

instance : TermDerive T (Or A B) (Or B A) Commute where
  termDerive proof := proof.mapEvidence fun
    | .left a => .right a
    | .right b => .left b
    | .both a b => .both b a

/-- `(A ∧ B) ∧ C ⇔ A ∧ (B ∧ C)` and `(A ∨ B) ∨ C ⇔ A ∨ (B ∨ C)`. -/
inductive Associate

instance : TermDerive T (And (And A B) C) (And A (And B C)) Associate where
  termDerive proof := proof.mapEvidence fun ⟨⟨a, b⟩, c⟩ => ⟨a, ⟨b, c⟩⟩

instance : TermDerive T (And A (And B C)) (And (And A B) C) Associate where
  termDerive proof := proof.mapEvidence fun ⟨a, ⟨b, c⟩⟩ => ⟨⟨a, b⟩, c⟩

instance : TermDerive T (Or (Or A B) C) (Or A (Or B C)) Associate where
  termDerive proof := proof.mapEvidence fun
    | .left (.left a) => .left a
    | .left (.right b) => .right (.left b)
    | .left (.both a b) => .both a (.left b)
    | .right c => .right (.right c)
    | .both (.left a) c => .both a (.right c)
    | .both (.right b) c => .right (.both b c)
    | .both (.both a b) c => .both a (.both b c)

instance : TermDerive T (Or A (Or B C)) (Or (Or A B) C) Associate where
  termDerive proof := proof.mapEvidence fun
    | .left a => .left (.left a)
    | .right (.left b) => .left (.right b)
    | .right (.right c) => .right c
    | .right (.both b c) => .both (.right b) c
    | .both a (.left b) => .left (.both a b)
    | .both a (.right c) => .both (.left a) c
    | .both a (.both b c) => .both (.both a b) c

/-- `A ∧ A ⇔ A` and `A ∨ A ⇔ A`. -/
inductive Idempotence

instance : TermDerive T (And A A) A Idempotence where
  termDerive proof := proof.mapEvidence fun ⟨a, _⟩ => a

instance [Clone A] : TermDerive T A (And A A) Idempotence where
  termDerive proof := proof.mapEvidence fun a => ⟨clone a, a⟩

instance : TermDerive T (Or A A) A Idempotence where
  termDerive proof := proof.mapEvidence fun
    | .left a | .right a | .both a _ => a

instance : TermDerive T A (Or A A) Idempotence where
  termDerive proof := proof.mapEvidence fun a => .left a

/-- `A ∧ (A ∨ B) ⇔ A` and `A ∨ (A ∧ B) ⇔ A`. -/
inductive Absorb

instance : TermDerive T (And A (Or A B)) A Absorb where
  termDerive proof := proof.mapEvidence fun ⟨a, _⟩ => a

instance [Clone A] : TermDerive T A (And A (Or A B)) Absorb where
  termDerive proof := proof.mapEvidence fun a => ⟨clone a, .left a⟩

instance : TermDerive T (Or A (And A B)) A Absorb where
  termDerive proof := proof.mapEvidence fun
    | .left a | .right ⟨a, _⟩ | .both a _ => a

instance : TermDerive T A (Or A (And A B)) Absorb where
  termDerive proof := proof.mapEvidence fun a => .left a

/-- `A ∧ (B ∨ C) ⇔ (A ∧ B) ∨ (A ∧ C)` and `A ∨ (B ∧ C) ⇔ (A ∨ B) ∧ (A ∨ C)`. -/
inductive Distribute

instance : TermDerive T (And A (Or B C)) (Or (And A B) (And A C)) Distribute where
  termDerive proof := proof.mapEvidence fun
    | ⟨a, .left b⟩ | ⟨a, .both b _⟩ => .left ⟨a, b⟩
    | ⟨a, .right c⟩ => .right ⟨a, c⟩

instance : TermDerive T (Or (And A B) (And A C)) (And A (Or B C)) Distribute where
  termDerive proof := proof.mapEvidence fun
    | .left ⟨a, b⟩ => ⟨a, .left b⟩
    | .right ⟨a, c⟩ => ⟨a, .right c⟩
    | .both ⟨a, b⟩ ⟨_, c⟩ => ⟨a, .both b c⟩

instance [Clone A] : TermDerive T (Or A (And B C)) (And (Or A B) (Or A C)) Distribute where
  termDerive proof := proof.mapEvidence fun
    | .left a => ⟨.left (clone a), .left a⟩
    | .right ⟨b, c⟩ => ⟨.right b, .right c⟩
    | .both a ⟨b, c⟩ => ⟨.both (clone a) b, .both a c⟩

instance : TermDerive T (And (Or A B) (Or A C)) (Or A (And B C)) Distribute where
  termDerive proof := proof.mapEvidence fun
    | ⟨.both a b, .right c⟩ | ⟨.both a b, .both _ c⟩ | ⟨.right b, .both a c⟩ => .both a ⟨b, c⟩
    | ⟨.right b, .right c⟩ => .right ⟨b, c⟩
    | ⟨.left a, _⟩ | ⟨.both a _, _⟩ | ⟨.right _, .left a⟩ => .left a

/-! ### Propositions in the parameters of a law -/

/-- The type parameters of a law. -/
inductive Param where
  | a | b | c

/-- A proposition in the parameters of a law. -/
inductive Shape where
  | param (x : Param)
  | and (p q : Shape)
  | or (p q : Shape)

namespace Shape

instance : Coe Param Shape := ⟨param⟩

/-- The evidence of a proposition, at given types of the parameters. -/
def Evidence (A B C : Type) : Shape → Type
  | .param .a => A
  | .param .b => B
  | .param .c => C
  | .and p q => And (p.Evidence A B C) (q.Evidence A B C)
  | .or p q => Or (p.Evidence A B C) (q.Evidence A B C)

/-- The parameters whose evidence is present. -/
@[simp] def Present : (p : Shape) → p.Evidence A B C → Param → Prop
  | .param x, _, y => y = x
  | .and p q, ⟨l, r⟩, y => p.Present l y ∨ q.Present r y
  | .or p _, .left l, y => p.Present l y
  | .or _ q, .right r, y => q.Present r y
  | .or p q, .both l r, y => p.Present l y ∨ q.Present r y

/-- Evidence can be put together from that of the parameters in `present`. -/
@[simp] def Assembles (present : Param → Prop) : Shape → Prop
  | .param x => present x
  | .and p q => p.Assembles present ∧ q.Assembles present
  | .or p q => p.Assembles present ∨ q.Assembles present

/-- Every disjunction holds each side whose evidence can be put together. -/
@[simp] def Keeps (present : Param → Prop) : (p : Shape) → p.Evidence A B C → Prop
  | .param _, _ => True
  | .and p q, ⟨l, r⟩ => p.Keeps present l ∧ q.Keeps present r
  | .or p q, .left l => p.Keeps present l ∧ ¬ q.Assembles present
  | .or p q, .right r => q.Keeps present r ∧ ¬ p.Assembles present
  | .or p q, .both l r => p.Keeps present l ∧ q.Keeps present r

end Shape

section

open Param Shape

/-- The laws, with their sources and targets. -/
inductive Law : Shape → Shape → Type where
  | commuteAnd : Law (and a b) (and b a)
  | commuteOr : Law (or a b) (or b a)
  | associateAnd : Law (and (and a b) c) (and a (and b c))
  | associateAndBack : Law (and a (and b c)) (and (and a b) c)
  | associateOr : Law (or (or a b) c) (or a (or b c))
  | associateOrBack : Law (or a (or b c)) (or (or a b) c)
  | idempotenceAnd : Law (and a a) a
  | idempotenceAndBack : Law a (and a a)
  | idempotenceOr : Law (or a a) a
  | idempotenceOrBack : Law a (or a a)
  | absorbAnd : Law (and a (or a b)) a
  | absorbAndBack : Law a (and a (or a b))
  | absorbOr : Law (or a (and a b)) a
  | absorbOrBack : Law a (or a (and a b))
  | distributeAnd : Law (and a (or b c)) (or (and a b) (and a c))
  | distributeAndBack : Law (or (and a b) (and a c)) (and a (or b c))
  | distributeOr : Law (or a (and b c)) (and (or a b) (or a c))
  | distributeOrBack : Law (and (or a b) (or a c)) (or a (and b c))

end

namespace Law

/-- The proof by a law. -/
def derive [Clone A] : {P Q : Shape} → Law P Q → Proven T (P.Evidence A B C) → Proven T (Q.Evidence A B C)
  | _, _, .commuteAnd => Proven.derive (P := And A B) (And B A) Commute
  | _, _, .commuteOr => Proven.derive (P := Or A B) (Or B A) Commute
  | _, _, .associateAnd => Proven.derive (P := And (And A B) C) (And A (And B C)) Associate
  | _, _, .associateAndBack => Proven.derive (P := And A (And B C)) (And (And A B) C) Associate
  | _, _, .associateOr => Proven.derive (P := Or (Or A B) C) (Or A (Or B C)) Associate
  | _, _, .associateOrBack => Proven.derive (P := Or A (Or B C)) (Or (Or A B) C) Associate
  | _, _, .idempotenceAnd => Proven.derive (P := And A A) A Idempotence
  | _, _, .idempotenceAndBack => Proven.derive (P := A) (And A A) Idempotence
  | _, _, .idempotenceOr => Proven.derive (P := Or A A) A Idempotence
  | _, _, .idempotenceOrBack => Proven.derive (P := A) (Or A A) Idempotence
  | _, _, .absorbAnd => Proven.derive (P := And A (Or A B)) A Absorb
  | _, _, .absorbAndBack => Proven.derive (P := A) (And A (Or A B)) Absorb
  | _, _, .absorbOr => Proven.derive (P := Or A (And A B)) A Absorb
  | _, _, .absorbOrBack => Proven.derive (P := A) (Or A (And A B)) Absorb
  | _, _, .distributeAnd => Proven.derive (P := And A (Or B C)) (Or (And A B) (And A C)) Distribute
  | _, _, .distributeAndBack => Proven.derive (P := Or (And A B) (And A C)) (And A (Or B C)) Distribute
  | _, _, .distributeOr => Proven.derive (P := Or A (And B C)) (And (Or A B) (Or A C)) Distribute
  | _, _, .distributeOrBack => Proven.derive (P := And (Or A B) (Or A C)) (Or A (And B C)) Distribute

/-- The laws that are documented to keep one side of a disjunction only. -/
def OneSided : {P Q : Shape} → Law P Q → Prop
  | _, _, .distributeAnd | _, _, .idempotenceOrBack | _, _, .absorbOrBack => True
  | _, _, _ => False

end Law

/-! ### There and back -/

theorem commute_commute_and (proof : Proven T (And A B)) :
    (proof.derive (And B A) Commute).derive (And A B) Commute = proof := rfl

theorem commute_commute_or : ∀ proof : Proven T (Or A B),
    (proof.derive (Or B A) Commute).derive (Or A B) Commute = proof
  | ⟨_, .left _⟩ | ⟨_, .right _⟩ | ⟨_, .both _ _⟩ => rfl

theorem associate_associate_and (proof : Proven T (And (And A B) C)) :
    (proof.derive (And A (And B C)) Associate).derive (And (And A B) C) Associate = proof := rfl

theorem associate_associate_and_back (proof : Proven T (And A (And B C))) :
    (proof.derive (And (And A B) C) Associate).derive (And A (And B C)) Associate = proof := rfl

theorem associate_associate_or : ∀ proof : Proven T (Or (Or A B) C),
    (proof.derive (Or A (Or B C)) Associate).derive (Or (Or A B) C) Associate = proof
  | ⟨_, .left (.left _)⟩ | ⟨_, .left (.right _)⟩ | ⟨_, .left (.both _ _)⟩ | ⟨_, .right _⟩
  | ⟨_, .both (.left _) _⟩ | ⟨_, .both (.right _) _⟩ | ⟨_, .both (.both _ _) _⟩ => rfl

theorem associate_associate_or_back : ∀ proof : Proven T (Or A (Or B C)),
    (proof.derive (Or (Or A B) C) Associate).derive (Or A (Or B C)) Associate = proof
  | ⟨_, .left _⟩ | ⟨_, .right (.left _)⟩ | ⟨_, .right (.right _)⟩ | ⟨_, .right (.both _ _)⟩
  | ⟨_, .both _ (.left _)⟩ | ⟨_, .both _ (.right _)⟩ | ⟨_, .both _ (.both _ _)⟩ => rfl

theorem distribute_distribute_or [Clone A] (hclone : ∀ a : A, clone a = a) : ∀ proof : Proven T (Or A (And B C)),
    (proof.derive (And (Or A B) (Or A C)) Distribute).derive (Or A (And B C)) Distribute = proof
  | ⟨_, .right _⟩ => rfl
  | ⟨s, .left a⟩ => congrArg (fun a => (⟨s, .left a⟩ : Proven T (Or A (And B C)))) (hclone a)
  | ⟨s, .both a ⟨b, c⟩⟩ => congrArg (fun a => (⟨s, .both a ⟨b, c⟩⟩ : Proven T (Or A (And B C)))) (hclone a)

/-! ### What is kept -/

/-- Every disjunction in the result of a law holds each side that the evidence of the source suffices for. -/
theorem Law.keeps [Clone A] {P Q : Shape} (law : Law P Q) (hlaw : ¬ law.OneSided)
    (proof : Proven T (P.Evidence A B C)) :
    Q.Keeps (P.Present proof.evidence) (law.derive proof).evidence := by
  obtain ⟨s, e⟩ := proof
  cases law with
  | distributeAnd | idempotenceOrBack | absorbOrBack => exact absurd trivial hlaw
  | idempotenceAnd | idempotenceOr | absorbAnd | absorbOr => exact trivial
  | commuteAnd | associateAnd | associateAndBack | idempotenceAndBack | absorbAndBack =>
    simp [Law.derive, TermDerive.termDerive]
  | commuteOr =>
    rcases e with x | y | ⟨x, y⟩
    all_goals simp [Law.derive, TermDerive.termDerive]
  | associateOr =>
    rcases e with (x | y | ⟨x, y⟩) | z | ⟨x | y | ⟨x, y⟩, z⟩
    all_goals simp [Law.derive, TermDerive.termDerive]
  | associateOrBack =>
    rcases e with x | (y | z | ⟨y, z⟩) | ⟨x, y | z | ⟨y, z⟩⟩
    all_goals simp [Law.derive, TermDerive.termDerive]
  | distributeAndBack =>
    rcases e with ⟨x, y⟩ | ⟨x, z⟩ | ⟨⟨x, y⟩, x', z⟩
    all_goals simp [Law.derive, TermDerive.termDerive]
  | distributeOr =>
    rcases e with x | ⟨y, z⟩ | ⟨x, y, z⟩
    all_goals simp [Law.derive, TermDerive.termDerive]
  | distributeOrBack =>
    rcases e with ⟨x | y | ⟨x, y⟩, x' | z | ⟨x', z⟩⟩
    all_goals simp [Law.derive, TermDerive.termDerive]

/-- The laws that undo each other give back the proof they were given. -/
structure RoundTrips (T A B C : Type) [Clone A] : Prop where
  commuteAnd : ∀ proof : Proven T (And A B), (proof.derive (And B A) Commute).derive (And A B) Commute = proof
  commuteOr : ∀ proof : Proven T (Or A B), (proof.derive (Or B A) Commute).derive (Or A B) Commute = proof
  associateAnd : ∀ proof : Proven T (And (And A B) C),
    (proof.derive (And A (And B C)) Associate).derive (And (And A B) C) Associate = proof
  associateAndBack : ∀ proof : Proven T (And A (And B C)),
    (proof.derive (And (And A B) C) Associate).derive (And A (And B C)) Associate = proof
  associateOr : ∀ proof : Proven T (Or (Or A B) C),
    (proof.derive (Or A (Or B C)) Associate).derive (Or (Or A B) C) Associate = proof
  associateOrBack : ∀ proof : Proven T (Or A (Or B C)),
    (proof.derive (Or (Or A B) C) Associate).derive (Or A (Or B C)) Associate = proof
  distributeOr : ∀ proof : Proven T (Or A (And B C)),
    (proof.derive (And (Or A B) (Or A C)) Distribute).derive (Or A (And B C)) Distribute = proof

/-- **The laws keep the evidence they can.** Commuting twice, associating there and back and distributing
`A ∨ (B ∧ C)` and back are the identity, and of every law but the documented ones the result holds each side
of a disjunction that the evidence of the source suffices for. The documented ones hold the left side. -/
theorem laws_keep_evidence [Clone A] (hclone : ∀ a : A, clone a = a) :
    RoundTrips T A B C ∧
    (∀ (P Q : Shape) (law : Law P Q) (proof : Proven T (P.Evidence A B C)), ¬ law.OneSided →
      Q.Keeps (P.Present proof.evidence) (law.derive proof).evidence) ∧
    (∀ (s : T) (a : A) (b : B) (c : C), (Proven.derive (Or (And A B) (And A C)) Distribute
      ⟨s, (⟨a, .both b c⟩ : And A (Or B C))⟩).evidence = .left ⟨a, b⟩) ∧
    ∀ proof : Proven T A, (proof.derive (Or A A) Idempotence).evidence = .left proof.evidence ∧
      (proof.derive (Or A (And A B)) Absorb).evidence = .left proof.evidence := by
  refine ⟨?_, fun P Q law proof hlaw => law.keeps hlaw proof, fun _ _ _ _ => rfl, fun _ => ⟨rfl, rfl⟩⟩
  exact {
    commuteAnd := commute_commute_and
    commuteOr := commute_commute_or
    associateAnd := associate_associate_and
    associateAndBack := associate_associate_and_back
    associateOr := associate_associate_or
    associateOrBack := associate_associate_or_back
    distributeOr := distribute_distribute_or hclone }

instance : Clone ℕ := ⟨id⟩

/-- The laws at numbers as evidence. -/
theorem laws_keep_evidence_nat : RoundTrips String ℕ ℕ ℕ ∧
    (∀ (P Q : Shape) (law : Law P Q) (proof : Proven String (P.Evidence ℕ ℕ ℕ)), ¬ law.OneSided →
      Q.Keeps (P.Present proof.evidence) (law.derive proof).evidence) :=
  have h := laws_keep_evidence (T := String) (A := ℕ) (B := ℕ) (C := ℕ) fun _ => rfl
  ⟨h.1, h.2.1⟩

end Wakuwaku.Proof
