import Mathlib.Data.Nat.Notation

/-! # Events on the wire

The header data the planner and the consumer read: the ordering of a message within its key, the
wire value of the algebra of its type, and its type tag. -/

namespace Wakuwaku.Iggy.Events

/-- Ordering of an event relative to the other events of the same key. -/
inductive EventAtomicOrdering where
  | relaxed
  | acquire
  | release
  | acqRel
  deriving DecidableEq, Repr

/-- `Acquire | AcqRel`, the pattern the planner matches on. -/
def EventAtomicOrdering.acquires : EventAtomicOrdering → Bool
  | .acquire | .acqRel => true
  | .relaxed | .release => false

/-- Wire value of the algebra of an event type. -/
inductive EventAssociativity where
  | nonAssociative
  | associative
  | idempotent
  | commutative
  | idempotentCommutative
  deriving DecidableEq, Repr

/-- Identifies an event type on the wire. -/
structure EventTypeTag where
  get : UInt32
  deriving DecidableEq, Repr

theorem EventTypeTag.toNat_inj {t u : EventTypeTag} : t.get.toNat = u.get.toNat ↔ t = u := by
  cases t; cases u; simp [UInt32.toNat_inj]

/-- Per-message properties carried in the properties header. -/
structure EventAlgebraicProperties where
  atomicLevel : EventAtomicOrdering
  associativity : EventAssociativity
  deriving DecidableEq, Repr

/-- Headers every event message carries. -/
structure EventHeaders where
  tag : EventTypeTag
  key : UInt64
  properties : EventAlgebraicProperties
  deriving DecidableEq, Repr

@[simp] theorem acquires_iff {o : EventAtomicOrdering} :
    o.acquires = true ↔ o = .acquire ∨ o = .acqRel := by cases o <;> simp [EventAtomicOrdering.acquires]

end Wakuwaku.Iggy.Events
