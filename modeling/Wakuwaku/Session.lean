import Mathlib.Data.Nat.Notation

/-! # Sessions with an environment

A session is a computation that extends a history of events. The environment answers a request as a
function of the history, so a statement about every environment is a statement about every course
of events. `Spec p m q` is the rule of pre- and postconditions for sessions. -/

namespace Wakuwaku

variable {ε α β : Type}

/-- A computation that adds its events to those so far. -/
abbrev Session (ε : Type) : Type → Type := StateM (List ε)

namespace Session

/-- One event. -/
def emit (event : ε) : Session ε Unit := modify (· ++ [event])

/-- One request with its answer. -/
def call (answer : List ε → α) (event : α → ε) : Session ε α := do
  let result := answer (← get)
  emit (event result)
  return result

@[simp] theorem run_emit (event : ε) (h : List ε) : (emit event).run h = ((), h ++ [event]) := rfl

@[simp] theorem run_call (answer : List ε → α) (event : α → ε) (h : List ε) :
    (call answer event).run h = (answer h, h ++ [event (answer h)]) := rfl

/-- From a history with `p`, the session ends with a result and a history with `q`. -/
def Spec (p : List ε → Prop) (m : Session ε α) (q : α → List ε → Prop) : Prop :=
  ∀ h, p h → q (m.run h).1 (m.run h).2

variable {p p' : List ε → Prop} {q q' : α → List ε → Prop} {m : Session ε α}

theorem Spec.imp (hm : Spec p m q) (hp : ∀ h, p' h → p h) (hq : ∀ a h, q a h → q' a h) :
    Spec p' m q' :=
  fun h hh => hq _ _ (hm h (hp h hh))

theorem spec_pure {a : α} (h : ∀ s, p s → q a s) : Spec p (pure a) q := h

theorem Spec.bind {r : β → List ε → Prop} {f : α → Session ε β} (hm : Spec p m q)
    (hf : ∀ a, Spec (q a) (f a) r) : Spec p (m >>= f) r :=
  fun h hh => hf _ _ (hm h hh)

theorem spec_emit {r : Unit → List ε → Prop} {event : ε} (h : ∀ s, p s → r () (s ++ [event])) :
    Spec p (emit event) r := h

theorem spec_call {answer : List ε → α} {event : α → ε}
    (h : ∀ s a, p s → q a (s ++ [event a])) : Spec p (call answer event) q :=
  fun s hs => h s _ hs

/-! ### Events of one kind -/

/-- The session adds only events with `p`. -/
def Adds (p : ε → Prop) (m : Session ε α) : Prop :=
  Spec (fun h => ∀ e ∈ h, p e) m fun _ h => ∀ e ∈ h, p e

section Adds

variable {p : ε → Prop} {m : Session ε α}

theorem adds_pure {a : α} : Adds p (pure a) := fun _ hh => hh

theorem Adds.bind {f : α → Session ε β} (hm : Adds p m) (hf : ∀ a, Adds p (f a)) : Adds p (m >>= f) :=
  Spec.bind hm hf

theorem adds_emit {event : ε} (h : p event) : Adds p (emit event) := by
  refine spec_emit fun s hs => ?_
  simpa only [List.forall_mem_append, List.forall_mem_singleton] using ⟨hs, h⟩

theorem adds_call {answer : List ε → α} {event : α → ε} (h : ∀ a, p (event a)) :
    Adds p (call answer event) := by
  refine spec_call fun s a hs => ?_
  simpa only [List.forall_mem_append, List.forall_mem_singleton] using ⟨hs, h a⟩

/-- From the empty history, all events of the session have `p`. -/
theorem Adds.run (hm : Adds p m) : ∀ e ∈ (m.run []).2, p e :=
  hm [] fun _ h => absurd h List.not_mem_nil

end Adds

end Session

end Wakuwaku
