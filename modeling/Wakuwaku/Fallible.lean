import Mathlib.Data.List.Forall2

/-! # Computations that may fail

A chain of computations succeeds if all of them do (`bind_eq_ok_iff`), and a list is computed as a whole:
if one of its elements fails, there is no result (`mapM_eq_ok_iff`, `mapM_eq_some_iff`). -/

namespace Wakuwaku

variable {ε α β : Type}

theorem bind_eq_ok_iff {m : Except ε α} {f : α → Except ε β} {b : β} :
    m >>= f = .ok b ↔ ∃ a, m = .ok a ∧ f a = .ok b := by
  cases m with
  | error e =>
    refine ⟨fun h => (nomatch h), ?_⟩
    rintro ⟨_, ⟨⟩, _⟩
  | ok a =>
    refine ⟨fun h => ⟨a, rfl, h⟩, ?_⟩
    rintro ⟨_, ⟨⟩, h⟩
    exact h

/-- An error that is replaced by another is still an error. -/
theorem mapError_eq_ok_iff {ε' : Type} {f : ε → ε'} {m : Except ε α} {a : α} :
    m.mapError f = .ok a ↔ m = .ok a := by
  cases m with
  | error e => exact ⟨fun h => (nomatch h), fun h => (nomatch h)⟩
  | ok b => exact ⟨fun h => congrArg _ (Except.ok.inj h), fun h => congrArg _ (Except.ok.inj h)⟩

/-- **A list is computed element by element**, or not at all. -/
theorem mapM_eq_ok_iff {f : α → Except ε β} : ∀ {l : List α} {results : List β},
    l.mapM f = .ok results ↔ List.Forall₂ (fun a b => f a = .ok b) l results
  | [], results => by
    rw [List.mapM_nil, List.forall₂_nil_left_iff]
    exact ⟨fun h => (Except.ok.inj h).symm, fun h => h ▸ rfl⟩
  | a :: l, results => by
    rw [List.mapM_cons, bind_eq_ok_iff]
    constructor
    · rintro ⟨b, hb, h⟩
      obtain ⟨rest, hrest, h⟩ := bind_eq_ok_iff.mp h
      obtain rfl := Except.ok.inj h
      exact .cons hb (mapM_eq_ok_iff.mp hrest)
    · rintro (_ | ⟨hb, hrest⟩)
      exact ⟨_, hb, bind_eq_ok_iff.mpr ⟨_, mapM_eq_ok_iff.mpr hrest, rfl⟩⟩

theorem mapM_append_eq_ok_iff {f : α → Except ε β} {l l' : List α} {results : List β} :
    (l ++ l').mapM f = .ok results ↔
      ∃ firsts rest, l.mapM f = .ok firsts ∧ l'.mapM f = .ok rest ∧ results = firsts ++ rest := by
  rw [List.mapM_append, bind_eq_ok_iff]
  constructor
  · rintro ⟨firsts, hfirsts, h⟩
    obtain ⟨rest, hrest, h⟩ := bind_eq_ok_iff.mp h
    exact ⟨firsts, rest, hfirsts, hrest, (Except.ok.inj h).symm⟩
  · rintro ⟨firsts, rest, hfirsts, hrest, rfl⟩
    exact ⟨firsts, hfirsts, bind_eq_ok_iff.mpr ⟨rest, hrest, rfl⟩⟩

theorem mapM_eq_some_iff {f : α → Option β} : ∀ {l : List α} {results : List β},
    l.mapM f = some results ↔ List.Forall₂ (fun a b => f a = some b) l results
  | [], results => by
    rw [List.mapM_nil, List.forall₂_nil_left_iff]
    exact ⟨fun h => (Option.some.inj h).symm, fun h => h ▸ rfl⟩
  | a :: l, results => by
    rw [List.mapM_cons, Option.bind_eq_bind, Option.bind_eq_some_iff]
    constructor
    · rintro ⟨b, hb, h⟩
      obtain ⟨rest, hrest, h⟩ := Option.bind_eq_some_iff.mp h
      obtain rfl := Option.some.inj h
      exact .cons hb (mapM_eq_some_iff.mp hrest)
    · rintro (_ | ⟨hb, hrest⟩)
      exact ⟨_, hb, Option.bind_eq_some_iff.mpr ⟨_, mapM_eq_some_iff.mpr hrest, rfl⟩⟩

end Wakuwaku
