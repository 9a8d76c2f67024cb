import Mathlib.Data.List.Basic

/-! # What a query reads and writes

The effect of a query is a nest of accesses to entities, and its kind says whether it writes. A
transaction declares its accesses as one list, from which its effect and its capability are built. A
capability covers an effect if it grants every access in it (`covers_iff`). -/

namespace Wakuwaku.Entity

/-- Whether an effect writes. -/
inductive Kind where
  | read
  | write
  deriving DecidableEq, Repr

/-- `WRITES`. -/
def Kind.writes : Kind → Bool
  | .read => false
  | .write => true

/-- The kind of the union of two effects. -/
def Kind.join : Kind → Kind → Kind
  | .read, k => k
  | .write, _ => .write

/-- The accesses of a query: `()`, one entity, or a tuple, which is its first element and the tuple
of the others. -/
inductive Effect (E : Type) where
  | unit
  | read (entity : E)
  | write (entity : E)
  | tuple (head tail : Effect E)
  deriving DecidableEq, Repr

/-- Whether the set of accesses contains a write. -/
def Effect.kind {E : Type} : Effect E → Kind
  | .unit => .read
  | .read _ => .read
  | .write _ => .write
  | .tuple head tail => head.kind.join tail.kind

/-- One access of a declaration with `tx_effect!`. -/
inductive Access (E : Type) where
  | read (entity : E)
  | write (entity : E)
  deriving DecidableEq, Repr

/-- The `Effect` of the type that `tx_effect!` declares: nested pairs. -/
def txEffect {E : Type} : List (Access E) → Effect E
  | [] => .unit
  | .read e :: rest => .tuple (.read e) (.tuple (txEffect rest) .unit)
  | .write e :: rest => .tuple (.write e) (.tuple (txEffect rest) .unit)

variable {E : Type} {a : Access E} {x : Effect E}

/-! ### Capabilities -/

/-- What a handle may do: the `CanRead` and `CanWrite` markers of its capability. -/
structure Capability (E : Type) where
  canRead : E → Prop
  canWrite : E → Prop
  /-- Writing implies reading. -/
  canRead_of_canWrite : ∀ e, canWrite e → canRead e

/-- May read every entity and write none. -/
def readOnly : Capability E := ⟨fun _ => True, fun _ => False, fun _ h => h.elim⟩

/-- May read and write every entity. -/
def readWrite : Capability E := ⟨fun _ => True, fun _ => True, fun _ h => h⟩

/-- The capability may perform every access in the effect. -/
def Capability.Covers (C : Capability E) : Effect E → Prop
  | .unit => True
  | .read e => C.canRead e
  | .write e => C.canWrite e
  | .tuple head tail => C.Covers head ∧ C.Covers tail

/-- The markers of the type that `tx_effect!` declares: `read E` is `CanRead<E>`, and `write E` is
`CanRead<E>` and `CanWrite<E>`. -/
def declared (accesses : List (Access E)) : Capability E where
  canRead e := .read e ∈ accesses ∨ .write e ∈ accesses
  canWrite e := .write e ∈ accesses
  canRead_of_canWrite _ h := Or.inr h

/-! ### The accesses in an effect -/

/-- The access stands in the effect, at any depth. -/
inductive Access.In : Access E → Effect E → Prop where
  | read (e : E) : In (.read e) (.read e)
  | write (e : E) : In (.write e) (.write e)
  | head {a : Access E} {head tail : Effect E} (h : In a head) : In a (.tuple head tail)
  | tail {a : Access E} {head tail : Effect E} (h : In a tail) : In a (.tuple head tail)

/-- The capability grants one access. -/
def Capability.Grants (C : Capability E) : Access E → Prop
  | .read e => C.canRead e
  | .write e => C.canWrite e

theorem not_in_unit : ¬ a.In .unit := by
  rintro ⟨⟩

theorem in_read {e : E} : a.In (.read e) ↔ a = .read e :=
  ⟨fun h => by cases h; rfl, fun h => h ▸ .read e⟩

theorem in_write {e : E} : a.In (.write e) ↔ a = .write e :=
  ⟨fun h => by cases h; rfl, fun h => h ▸ .write e⟩

theorem in_tuple {head tail : Effect E} : a.In (.tuple head tail) ↔ a.In head ∨ a.In tail := by
  constructor
  · intro h
    cases h with
    | head h => exact Or.inl h
    | tail h => exact Or.inr h
  · rintro (h | h)
    · exact .head h
    · exact .tail h

/-- Covering an effect is granting every access in it. -/
theorem covers_iff {C : Capability E} : C.Covers x ↔ ∀ a : Access E, a.In x → C.Grants a := by
  induction x with
  | unit => exact ⟨fun _ a h => absurd h not_in_unit, fun _ => trivial⟩
  | read e => exact ⟨fun h a ha => in_read.mp ha ▸ h, fun h => h _ (.read e)⟩
  | write e => exact ⟨fun h a ha => in_write.mp ha ▸ h, fun h => h _ (.write e)⟩
  | tuple head tail ihh iht =>
    refine (and_congr ihh iht).trans ⟨fun ⟨hh, ht⟩ a ha => ?_, fun h => ⟨?_, ?_⟩⟩
    · exact (in_tuple.mp ha).elim (hh a) (ht a)
    · exact fun a ha => h a (.head ha)
    · exact fun a ha => h a (.tail ha)

/-- The effect of a declaration holds the accesses it lists. -/
theorem in_txEffect : ∀ accesses : List (Access E), a.In (txEffect accesses) ↔ a ∈ accesses
  | [] => ⟨fun h => absurd h not_in_unit, by simp⟩
  | .read e :: rest => by
    simp only [txEffect, in_tuple, in_read, not_in_unit, or_false, in_txEffect rest, List.mem_cons]
  | .write e :: rest => by
    simp only [txEffect, in_tuple, in_write, not_in_unit, or_false, in_txEffect rest, List.mem_cons]

theorem grants_declared {accesses : List (Access E)} {a : Access E} :
    (declared accesses).Grants a ↔ a ∈ accesses ∨ ∃ e, a = .read e ∧ .write e ∈ accesses := by
  cases a with
  | read e =>
    refine or_congr_right ⟨fun h => ⟨e, rfl, h⟩, ?_⟩
    rintro ⟨e, ⟨⟩, h⟩
    exact h
  | write e => exact ⟨Or.inl, fun h => h.resolve_right (by rintro ⟨_, ⟨⟩, _⟩)⟩

/-! ### Kinds -/

theorem writes_join {k l : Kind} : (k.join l).writes = (k.writes || l.writes) := by
  cases k <;> rfl

/-- An effect writes iff an access in it does. -/
theorem writes_kind_iff : x.kind.writes = true ↔ ∃ e, (Access.write e).In x := by
  induction x with
  | unit => exact ⟨fun h => Bool.noConfusion h, fun ⟨_, h⟩ => absurd h not_in_unit⟩
  | read e =>
    refine ⟨fun h => Bool.noConfusion h, ?_⟩
    rintro ⟨_, ⟨⟩⟩
  | write e => exact ⟨fun _ => ⟨e, .write e⟩, fun _ => rfl⟩
  | tuple head tail ihh iht =>
    simp only [Effect.kind, writes_join, Bool.or_eq_true, ihh, iht, in_tuple, exists_or]

theorem writes_kind_txEffect (accesses : List (Access E)) :
    (txEffect accesses).kind.writes = true ↔ ∃ e, .write e ∈ accesses :=
  writes_kind_iff.trans (exists_congr fun _ => in_txEffect accesses)

/-! ### A declaration and what it covers -/

section Declared

variable {accesses : List (Access E)} (hx : (declared accesses).Covers x)
include hx

/-- A capability that covers a declaration covers all that the declaration covers. -/
theorem covers_of_declared {C : Capability E} (hC : C.Covers (txEffect accesses)) : C.Covers x := by
  refine covers_iff.mpr fun a ha => ?_
  have hg : ∀ b ∈ accesses, C.Grants b := fun b hb => covers_iff.mp hC b ((in_txEffect accesses).mpr hb)
  rcases grants_declared.mp (covers_iff.mp hx a ha) with h | ⟨e, rfl, h⟩
  · exact hg a h
  · exact C.canRead_of_canWrite e (hg _ h)

/-- A write in a covered effect is declared. -/
theorem mem_of_in_of_declared {e : E} (h : (Access.write e).In x) : .write e ∈ accesses :=
  covers_iff.mp hx _ h

end Declared

end Wakuwaku.Entity
