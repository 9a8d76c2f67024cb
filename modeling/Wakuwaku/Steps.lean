/-! # Runs of a transition system

A system is a relation between a state, an event and the next state. `Steps` are its runs with their
events; what the start has and every step keeps holds at the end of every run (`Steps.invariant`). -/

namespace Wakuwaku

variable {S E : Type}

/-- The events of a run, the oldest first, and the state it leads to. -/
inductive Steps (step : S → E → S → Prop) (start : S) : List E → S → Prop
  | nil : Steps step start [] start
  | snoc {t s e s'} (h : Steps step start t s) (hs : step s e s') : Steps step start (t ++ [e]) s'

namespace Steps

variable {step : S → E → S → Prop} {start s : S} {t : List E} {e : E}

/-- **What every step keeps holds of every run.** -/
theorem invariant {p : List E → S → Prop} (hstart : p [] start)
    (hstep : ∀ {t s e s'}, Steps step start t s → p t s → step s e s' → p (t ++ [e]) s')
    (h : Steps step start t s) : p t s := by
  induction h with
  | nil => exact hstart
  | snoc h hs ih => exact hstep h ih hs

theorem single {s' : S} (hs : step s e s') : Steps step s [e] s' := (Steps.nil).snoc hs

end Steps

end Wakuwaku
