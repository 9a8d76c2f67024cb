import Wakuwaku.Async
import Mathlib.Data.List.Induction

/-! # Computations in a world

A world answers the requests of a computation, changes with them, and also moves by itself at any time.
An assertion about the world is stable: it survives the moves. `Triple` is the rule of pre- and
postconditions for computations in a world, with an assertion that holds at every moment. -/

namespace Wakuwaku

variable {S ε α β σ : Type}

/-- What an event does to the world, and how the world moves by itself. -/
structure World (S ε : Type) where
  step : S → ε → S → Prop
  move : S → S → Prop

namespace World

/-- The events of a computation, with moves of the world between them. -/
inductive Runs (world : World S ε) (start : S) : List ε → S → Prop
  | nil : Runs world start [] start
  | move {t s s'} (h : Runs world start t s) (hm : world.move s s') : Runs world start t s'
  | step {t s e s'} (h : Runs world start t s) (hs : world.step s e s') :
    Runs world start (t ++ [e]) s'

/-- The world with only some of its steps. -/
def restrict (world : World S ε) (allowed : S → ε → S → Prop) : World S ε :=
  ⟨fun s e s' => world.step s e s' ∧ allowed s e s', world.move⟩

namespace Runs

variable {world : World S ε} {start s s' : S} {t u : List ε} {e : ε}

theorem trans (h : Runs world start t s) (h' : Runs world s u s') : Runs world start (t ++ u) s' := by
  induction h' with
  | nil => rwa [List.append_nil]
  | move _ hm ih => exact ih.move hm
  | step _ hs ih => exact (List.append_assoc t _ _) ▸ ih.step hs

/-- A run can be cut between its events. -/
theorem split (h : Runs world start (t ++ u) s) : ∃ m, Runs world start t m ∧ Runs world m u s := by
  generalize hv : t ++ u = v at h
  induction h generalizing u with
  | nil =>
    obtain ⟨rfl, rfl⟩ := List.append_eq_nil_iff.mp hv
    exact ⟨start, .nil, .nil⟩
  | move _ hm ih =>
    obtain ⟨m, ht, hu⟩ := ih hv
    exact ⟨m, ht, hu.move hm⟩
  | @step v s e s' h hs ih =>
    rcases List.eq_nil_or_concat u with rfl | ⟨init, last, rfl⟩
    · rw [List.append_nil] at hv
      exact ⟨s', hv ▸ h.step hs, .nil⟩
    · rw [List.concat_eq_append, ← List.append_assoc] at hv
      obtain ⟨hinit, hlast⟩ := List.append_inj' hv rfl
      obtain rfl := (List.cons.inj hlast).1
      obtain ⟨m, ht, hu⟩ := ih hinit
      rw [List.concat_eq_append]
      exact ⟨m, ht, hu.step hs⟩

/-- A run of one event: moves, its step and moves. -/
theorem exists_step (h : Runs world start [e] s) :
    ∃ m m', Runs world start [] m ∧ world.step m e m' ∧ Runs world m' [] s := by
  generalize hv : [e] = v at h
  induction h with
  | nil => cases hv
  | move _ hm ih =>
    obtain ⟨m, m', h, hs, h'⟩ := ih hv
    exact ⟨m, m', h, hs, h'.move hm⟩
  | @step v s e' s' h hs ih =>
    obtain ⟨rfl, hlast⟩ := List.append_inj' (show [] ++ [e] = v ++ [e'] from hv) rfl
    obtain rfl := (List.cons.inj hlast).1
    exact ⟨s, s', h, hs, .nil⟩

theorem mono {world' : World S ε} (h : Runs world start t s)
    (hstep : ∀ s e s', world.step s e s' → world'.step s e s')
    (hmove : ∀ s s', world.move s s' → world'.move s s') : Runs world' start t s := by
  induction h with
  | nil => exact .nil
  | move _ hm ih => exact ih.move (hmove _ _ hm)
  | step _ hs ih => exact ih.step (hstep _ _ _ hs)

end Runs

/-- A statement about the world that its moves keep. -/
structure Assertion (world : World S ε) where
  holds : S → Prop
  stable : ∀ {s s'}, holds s → world.move s s' → holds s'

variable {world : World S ε}

instance : CoeFun (Assertion world) fun _ => S → Prop := ⟨Assertion.holds⟩

theorem Assertion.of_moves (p : Assertion world) {s s' : S} (h : p s) (hr : world.Runs s [] s') : p s' := by
  generalize hv : [] = v at hr
  induction hr with
  | nil => exact h
  | move _ hm ih => exact p.stable (ih hv) hm
  | step _ _ _ => simp at hv

/-- An assertion, and a fact that is not about the world. -/
def Assertion.given (fact : Prop) (p : Assertion world) : Assertion world :=
  ⟨fun s => fact ∧ p s, fun h hm => ⟨h.1, p.stable h.2 hm⟩⟩

/-- What always holds. -/
def anything : Assertion world := ⟨fun _ => True, fun _ _ => trivial⟩

/-! ### Triples -/

/-- From a world with `p`, whatever `m` has done so far, `safe` holds, and once it has returned, `q` of
its result. -/
def Triple (safe p : Assertion world) (m : Async ε α) (q : α → Assertion world) : Prop :=
  ∀ ⦃s t o s'⦄, p s → m t o → world.Runs s t s' → safe s' ∧ ∀ a, o = some a → q a s'

variable {safe p p' : Assertion world} {m : Async ε α} {q q' : α → Assertion world}

theorem Triple.imp (h : Triple safe p m q) (hp : ∀ s, p' s → p s) (hq : ∀ a s, q a s → q' a s) :
    Triple safe p' m q' := fun _ _ _ _ hs hm hr =>
  (h (hp _ hs) hm hr).imp_right fun h a ho => hq a _ (h a ho)

/-- What is safe is safe in a weaker sense. -/
theorem Triple.mono {kept : Assertion world} (h : Triple kept p m q) (hkept : ∀ s, kept s → safe s) :
    Triple safe p m q := fun _ _ _ _ hs hm hr => (h hs hm hr).imp_left (hkept _)

theorem Triple.of_given {fact : Prop} (h : fact → Triple safe p m q) : Triple safe (p.given fact) m q :=
  fun _ _ _ _ hs => h hs.1 hs.2

theorem Triple.pure {a : α} (h : ∀ s, p s → safe s ∧ q a s) : Triple safe p (pure a) q := by
  rintro s t o s' hs ⟨rfl, ho⟩ hr
  obtain ⟨hsafe, hq⟩ := h s hs
  refine ⟨safe.of_moves hsafe hr, fun b hb => ?_⟩
  rw [ho b hb]
  exact (q a).of_moves hq hr

theorem Triple.bind {f : α → Async ε β} {r : β → Assertion world} (hm : Triple safe p m q)
    (hf : ∀ a, Triple safe (q a) (f a) r) : Triple safe p (m >>= f) r := by
  rintro s t o s' hs (⟨hn, rfl⟩ | ⟨a, u, v, hu, hv, rfl⟩) hr
  · exact ⟨(hm hs hn hr).1, fun b hb => by cases hb⟩
  · obtain ⟨n, hr, hr'⟩ := hr.split
    exact hf a ((hm hs hu hr).2 a rfl) hv hr'

/-- A request: what its answers do, and what it does when it is cut off. -/
theorem Triple.call {event : Option α → ε} (hp : ∀ s, p s → safe s)
    (hsome : ∀ s a s', p s → world.step s (event (some a)) s' → safe s' ∧ q a s')
    (hnone : ∀ s s', p s → world.step s (event none) s' → safe s') :
    Triple safe p (Async.call event) q := by
  rintro s t o s' hs (⟨rfl, rfl | rfl⟩ | ⟨a, rfl, ho⟩) hr
  · exact ⟨hp _ (p.of_moves hs hr), fun b hb => by cases hb⟩
  · obtain ⟨n, n', hn, hstep, hr⟩ := hr.exists_step
    exact ⟨safe.of_moves (hnone n n' (p.of_moves hs hn) hstep) hr, fun b hb => by cases hb⟩
  · obtain ⟨n, n', hn, hstep, hr⟩ := hr.exists_step
    obtain ⟨hsafe, hq⟩ := hsome n a n' (p.of_moves hs hn) hstep
    refine ⟨safe.of_moves hsafe hr, fun b hb => ?_⟩
    rcases ho with rfl | rfl
    · cases hb
    · cases hb
      exact (q a).of_moves hq hr

/-- A loop: every round keeps `inv` or ends with `q`. -/
theorem Triple.loop {body : σ → Async ε (σ ⊕ α)} {inv : σ → Assertion world}
    (h : ∀ x, Triple safe (inv x) (body x) (Sum.elim inv q)) (x : σ) :
    Triple safe (inv x) (Async.loop body x) q := by
  intro s t o s' hs hl hr
  induction hl generalizing s with
  | stop hb => exact ⟨(h _ hs hb hr).1, fun b hb => by cases hb⟩
  | done hb =>
    obtain ⟨hsafe, hq⟩ := h _ hs hb hr
    refine ⟨hsafe, fun b hb => ?_⟩
    cases hb
    exact hq _ rfl
  | again hb hl ih =>
    obtain ⟨n, hr, hr'⟩ := hr.split
    exact ih ((h _ hs hb hr).2 _ rfl) hr'

theorem Triple.choose {r : α → Prop} (h : ∀ s, p s → safe s) (hq : ∀ a, r a → ∀ s, p s → q a s) :
    Triple safe p (Async.choose r) q := by
  rintro s t o s' hs ⟨rfl, ho⟩ hr
  refine ⟨safe.of_moves (h s hs) hr, fun a ha => ?_⟩
  exact (q a).of_moves (hq a (ho a ha) s hs) hr

/-- What is done with any value that could be chosen. -/
theorem Triple.chooseBind {r : α → Prop} {f : α → Async ε β} {q : β → Assertion world}
    (h : ∀ s, p s → safe s) (hf : ∀ a, r a → Triple safe p (f a) q) :
    Triple safe p (Async.choose r >>= f) q := by
  rintro s t o s' hs (⟨⟨rfl, -⟩, rfl⟩ | ⟨a, u, v, ⟨rfl, hr⟩, hv, rfl⟩) hruns
  · exact ⟨safe.of_moves (h s hs) hruns, nofun⟩
  · exact hf a (hr a rfl) hs hv hruns

/-- A computation whose events all keep `p`. -/
theorem Triple.of_all (allowed : ε → Prop) (hm : Async.All allowed m) (hp : ∀ s, p s → safe s)
    (hstep : ∀ s e s', p s → allowed e → world.step s e s' → p s')
    (hq : ∀ t a, m t (some a) → ∀ s, p s → q a s) : Triple safe p m q := by
  intro s t o s' hs ht hr
  have hkeep : ∀ {u n}, world.Runs s u n → (∀ e ∈ u, allowed e) → p n := by
    intro u n hr
    induction hr with
    | nil => exact fun _ => hs
    | move _ hm ih => exact fun hu => p.stable (ih hu) hm
    | step _ hst ih =>
      exact fun hu => hstep _ _ _ (ih fun e he => hu e (List.mem_append_left _ he))
        (hu _ (List.mem_append_right _ (List.mem_singleton_self _))) hst
  have hp' := hkeep hr (hm t o ht)
  exact ⟨hp s' hp', fun a ha => hq t a (ha ▸ ht) s' hp'⟩

/-! ### Computations that fail -/

variable {E : Type}

/-- What holds once a computation has failed, which may depend on its error, or returned. -/
def outcomes (failed : E → Assertion world) (q : α → Assertion world) : Except E α → Assertion world
  | .error e => failed e
  | .ok a => q a

/-- A failed computation does nothing more. -/
theorem Triple.bindExcept {m : ExceptT E (Async ε) α} {f : α → ExceptT E (Async ε) β}
    {r : β → Assertion world} {failed : E → Assertion world} (hfailed : ∀ e s, failed e s → safe s)
    (hm : Triple safe p m.run (outcomes failed q)) (hf : ∀ a, Triple safe (q a) (f a).run (outcomes failed r)) :
    Triple safe p (m >>= f).run (outcomes failed r) := by
  refine Triple.bind hm fun a => ?_
  cases a with
  | error e => exact Triple.pure fun s h => ⟨hfailed e s h, h⟩
  | ok a => exact hf a

/-- An error that is replaced by another. -/
theorem Triple.mapExcept {E' : Type} {f : E → E'} {m : Async ε (Except E α)} {failed : E' → Assertion world}
    (hfailed : ∀ e s, failed e s → safe s) (hq : ∀ a s, q a s → safe s)
    (hm : Triple safe p m (outcomes (fun e => failed (f e)) q)) :
    Triple safe p (do return (← m).mapError f : Async ε (Except E' α)) (outcomes failed q) := by
  refine Triple.bind hm fun r => ?_
  cases r with
  | error e => exact Triple.pure (a := Except.error (f e)) (q := outcomes failed q) fun s h => ⟨hfailed _ s h, h⟩
  | ok a => exact Triple.pure (a := Except.ok a) (q := outcomes failed q) fun s h => ⟨hq a s h, h⟩

/-- A loop that can fail. -/
theorem Triple.loopExcept {body : σ → ExceptT E (Async ε) (σ ⊕ α)} (inv : σ → Assertion world)
    (q : α → Assertion world) {failed : E → Assertion world} (hfailed : ∀ e s, failed e s → safe s)
    (hinv : ∀ x s, inv x s → safe s) (hq : ∀ a s, q a s → safe s)
    (h : ∀ x, Triple safe (inv x) (body x).run (outcomes failed (Sum.elim inv q))) (x : σ) :
    Triple safe (inv x) (Async.tryLoop body x).run (outcomes failed q) := by
  refine Triple.loop (fun x => Triple.bind (h x) fun r => ?_) x
  rcases r with e | x' | a
  · exact Triple.pure (a := Sum.inr (Except.error e)) fun s hs => ⟨hfailed e s hs, hs⟩
  · exact Triple.pure (a := Sum.inl x') fun s hs => ⟨hinv x' s hs, hs⟩
  · exact Triple.pure (a := Sum.inr (Except.ok a)) fun s hs => ⟨hq a s hs, hs⟩

/-- What holds once a computation has failed or returned. -/
def outcome (failed : Assertion world) (q : α → Assertion world) : Except E α → Assertion world
  | .error _ => failed
  | .ok a => q a

theorem outcome_eq (failed : Assertion world) (q : α → Assertion world) :
    outcome (E := E) failed q = outcomes (fun _ => failed) q := by
  funext r
  cases r <;> rfl

/-- A failed computation does nothing more. -/
theorem Triple.tryBind {m : ExceptT E (Async ε) α} {f : α → ExceptT E (Async ε) β}
    {r : β → Assertion world} {failed : Assertion world} (hfailed : ∀ s, failed s → safe s)
    (hm : Triple safe p m.run (outcome failed q)) (hf : ∀ a, Triple safe (q a) (f a).run (outcome failed r)) :
    Triple safe p (m >>= f).run (outcome failed r) := by
  rw [outcome_eq] at hm ⊢
  exact Triple.bindExcept (fun _ => hfailed) hm fun a => outcome_eq failed r ▸ hf a

theorem Triple.tryPure {a : α} {failed : Assertion world} (h : ∀ s, p s → safe s ∧ q a s) :
    Triple safe p (Pure.pure a : ExceptT E (Async ε) α).run (outcome failed q) :=
  Triple.pure (q := outcome failed q) h

/-- An error that is replaced by another. -/
theorem Triple.mapError {E' : Type} {f : E → E'} {m : Async ε (Except E α)} {failed : Assertion world}
    (hfailed : ∀ s, failed s → safe s) (hq : ∀ a s, q a s → safe s) (hm : Triple safe p m (outcome failed q)) :
    Triple safe p (do return (← m).mapError f : Async ε (Except E' α)) (outcome failed q) := by
  rw [outcome_eq] at hm ⊢
  exact Triple.mapExcept (fun _ => hfailed) hq hm

/-- A computation that cannot fail. -/
theorem Triple.lift {failed : Assertion world} (hq : ∀ a s, q a s → safe s) (hm : Triple safe p m q) :
    Triple safe p (liftM m : ExceptT E (Async ε) α).run (outcome failed q) :=
  Triple.bind hm fun a => Triple.pure (a := Except.ok a) (q := outcome failed q) fun s h => ⟨hq a s h, h⟩

/-- A request that is repeated until it succeeds; one that fails leaves `p`. -/
theorem Triple.untilOk {m : Async ε (Except E α)} (hp : ∀ s, p s → safe s) (hq : ∀ a s, q a s → safe s)
    (hm : Triple safe p m (outcome p q)) : Triple safe p (Async.untilOk m) q := by
  refine @Triple.loop _ _ _ _ _ _ q _ (fun _ => p) (fun _ => Triple.bind hm fun r => ?_) ()
  cases r with
  | error e => exact Triple.pure (a := Sum.inl ()) fun s h => ⟨hp s h, h⟩
  | ok a => exact Triple.pure (a := Sum.inr a) fun s h => ⟨hq a s h, h⟩

/-- The same, of a single request: what its answers do, and what it does when it is cut off. -/
theorem Triple.request {event : Option (Except E α) → ε} (hp : ∀ s, p s → safe s)
    (hq : ∀ a s, q a s → safe s)
    (hok : ∀ s a s', p s → world.step s (event (some (.ok a))) s' → q a s')
    (herror : ∀ s e s', p s → world.step s (event (some (.error e))) s' → p s')
    (hnone : ∀ s s', p s → world.step s (event none) s' → safe s') :
    Triple safe p (Async.untilOk (Async.call event)) q := by
  refine Triple.untilOk hp hq (Triple.call hp ?_ hnone)
  intro s r s' hs hstep
  cases r with
  | error e =>
    have h := herror s e s' hs hstep
    exact ⟨hp s' h, h⟩
  | ok a =>
    have h := hok s a s' hs hstep
    exact ⟨hq a s' h, h⟩

/-- Dropped at any moment, a computation leaves what it is safe to leave. -/
theorem Triple.unlessDropped {error : E} (hm : Triple safe p m q) :
    Triple safe p (Async.unlessDropped error m).run (outcome safe q) := by
  rintro s t o s' hs (⟨a, ha, rfl⟩ | ⟨hn, rfl⟩) hr
  · obtain ⟨hsafe, hq⟩ := hm hs ha hr
    refine ⟨hsafe, fun r hr => ?_⟩
    obtain ⟨a, rfl, rfl⟩ := Option.map_eq_some_iff.mp hr
    exact hq a rfl
  · obtain ⟨hsafe, -⟩ := hm hs hn hr
    refine ⟨hsafe, fun r hr => ?_⟩
    cases hr
    exact hsafe

/-- A loop that can fail. -/
theorem Triple.tryLoop {body : σ → ExceptT E (Async ε) (σ ⊕ α)} (inv : σ → Assertion world)
    (q : α → Assertion world) {failed : Assertion world} (hfailed : ∀ s, failed s → safe s)
    (hinv : ∀ x s, inv x s → safe s) (hq : ∀ a s, q a s → safe s)
    (h : ∀ x, Triple safe (inv x) (body x).run (outcome failed (Sum.elim inv q))) (x : σ) :
    Triple safe (inv x) (Async.tryLoop body x).run (outcome failed q) := by
  rw [outcome_eq]
  exact Triple.loopExcept inv q (fun _ => hfailed) hinv hq (fun x => outcome_eq failed _ ▸ h x) x

/-! ### Events alone -/

/-- The world that keeps the events. -/
def traces : World (List ε) ε := ⟨fun t e t' => t' = t ++ [e], fun _ _ => False⟩

/-- A statement about the events so far. -/
def ofEvents (p : List ε → Prop) : Assertion (traces (ε := ε)) := ⟨p, fun _ h => h.elim⟩

theorem runs_traces (t : List ε) : Runs traces [] t t := by
  induction t using List.reverseRecOn with
  | nil => exact .nil
  | append_singleton t e ih => exact ih.step rfl

/-- What a triple says about the events of a computation. -/
theorem Triple.events {safe : Assertion (traces (ε := ε))} {q : α → Assertion (traces (ε := ε))}
    (h : Triple safe (ofEvents (· = [])) m q) {t : List ε} {o : Option α} (hm : m t o) :
    safe t ∧ ∀ a, o = some a → q a t := h rfl hm (runs_traces t)

/-! ### The past, and restarts -/

/-- The world with its past: the events so far, each with the world it found. -/
def recorded (world : World S ε) : World (S × List (S × ε)) ε :=
  ⟨fun s e s' => world.step s.1 e s'.1 ∧ s'.2 = s.2 ++ [(s.1, e)],
    fun s s' => world.move s.1 s'.1 ∧ s'.2 = s.2⟩

/-- A computation that is started again whenever it has returned or was cut off, at any moment. -/
inductive Lives (world : World S ε) (m : Async ε α) (start : S) : S → Prop
  | start : Lives world m start start
  | life {s t o s'} (h : Lives world m start s) (hm : m t o) (hr : world.Runs s t s') :
    Lives world m start s'

/-- **What a computation can be started with, and leaves at any moment**, holds at every moment. -/
theorem Lives.invariant {start s : S} (hm : Triple safe safe m q) (hstart : safe start)
    (h : Lives world m start s) : safe s := by
  induction h with
  | start => exact hstart
  | life _ ht hr ih => exact (hm ih ht hr).1

/-- A computation that is started again whenever it has returned. -/
inductive Sessions (world : World S ε) (m : Async ε α) (start : S) : S → Prop
  | start : Sessions world m start start
  | session {s t a s'} (h : Sessions world m start s) (hm : m t (some a)) (hr : world.Runs s t s') :
    Sessions world m start s'

/-- **What a computation can be started with, and returns with**, holds between its sessions. -/
theorem Sessions.invariant {start s : S} (hm : Triple safe p m fun _ => p) (hstart : p start)
    (h : Sessions world m start s) : p s := by
  induction h with
  | start => exact hstart
  | session _ ht hr ih => exact (hm ih ht hr).2 _ rfl

/-! ### What can happen -/

/-- `m` can return `a`, and the world then be `s'`. -/
def Reaches (world : World S ε) (m : Async ε α) (s : S) (a : α) (s' : S) : Prop :=
  ∃ t, m t (some a) ∧ world.Runs s t s'

variable {s s' s'' : S} {a : α} {b : β}

theorem Reaches.pure : Reaches world (pure a) s a s := ⟨[], Async.pure_iff.mpr ⟨rfl, rfl⟩, .nil⟩

theorem Reaches.bind {f : α → Async ε β} (hm : Reaches world m s a s') (hf : Reaches world (f a) s' b s'') :
    Reaches world (m >>= f) s b s'' := by
  obtain ⟨t, hm, hr⟩ := hm
  obtain ⟨u, hf, hr'⟩ := hf
  exact ⟨t ++ u, Async.bind_iff.mpr ⟨a, t, u, hm, hf, rfl⟩, hr.trans hr'⟩

theorem Reaches.call {event : Option α → ε} (h : world.step s (event (some a)) s') :
    Reaches world (Async.call event) s a s' :=
  ⟨[event (some a)], Async.call_iff.mpr rfl, Runs.step .nil h⟩

theorem Reaches.mono {world' : World S ε} (h : Reaches world m s a s')
    (hstep : ∀ s e s', world.step s e s' → world'.step s e s')
    (hmove : ∀ s s', world.move s s' → world'.move s s') : Reaches world' m s a s' := by
  obtain ⟨t, ht, hr⟩ := h
  exact ⟨t, ht, hr.mono hstep hmove⟩

theorem Reaches.move (h : Reaches world m s a s') (hm : world.move s' s'') : Reaches world m s a s'' := by
  obtain ⟨t, ht, hr⟩ := h
  exact ⟨t, ht, hr.move hm⟩

theorem Reaches.tryBind {m : ExceptT E (Async ε) α} {f : α → ExceptT E (Async ε) β} {r : Except E β}
    (hm : Reaches world m.run s (.ok a) s') (hf : Reaches world (f a).run s' r s'') :
    Reaches world (m >>= f).run s r s'' := Reaches.bind hm hf

theorem Reaches.tryFail {m : ExceptT E (Async ε) α} {f : α → ExceptT E (Async ε) β} {e : E}
    (hm : Reaches world m.run s (.error e) s') : Reaches world (m >>= f).run s (.error e) s' :=
  Reaches.bind hm Reaches.pure

theorem Reaches.lift (h : Reaches world m s a s') :
    Reaches world (liftM m : ExceptT E (Async ε) α).run s (.ok a) s' := h.bind Reaches.pure

theorem Reaches.choose {p : α → Prop} (h : p a) : Reaches world (Async.choose p) s a s := by
  refine ⟨[], ⟨rfl, fun b hb => ?_⟩, .nil⟩
  obtain rfl := Option.some.inj hb
  exact h

theorem Reaches.untilOk {m : Async ε (Except E α)} (h : Reaches world m s (.ok a) s') :
    Reaches world (Async.untilOk m) s a s' := by
  obtain ⟨t, ht, hr⟩ := h
  exact ⟨t, .done (Async.bind_iff.mpr ⟨_, t, [], ht, Async.pure_iff.mpr ⟨rfl, rfl⟩,
    (List.append_nil t).symm⟩), hr⟩

theorem Reaches.unlessDropped {error : E} (h : Reaches world m s a s') :
    Reaches world (Async.unlessDropped error m).run s (.ok a) s' := by
  obtain ⟨t, ht, hr⟩ := h
  exact ⟨t, Or.inl ⟨some a, ht, rfl⟩, hr⟩

/-- A loop that ends in its first round. -/
theorem Reaches.tryLoop {body : σ → ExceptT E (Async ε) (σ ⊕ α)} {x : σ}
    (h : Reaches world (body x).run s (.ok (.inr a)) s') :
    Reaches world (Async.tryLoop body x).run s (.ok a) s' := by
  obtain ⟨t, ht, hr⟩ := h
  exact ⟨t, .done (Async.bind_iff.mpr ⟨_, t, [], ht, Async.pure_iff.mpr ⟨rfl, rfl⟩,
    (List.append_nil t).symm⟩), hr⟩

/-- A loop that goes on after its first round. -/
theorem Reaches.tryAgain {body : σ → ExceptT E (Async ε) (σ ⊕ α)} {x x' : σ} {r : Except E α}
    (h : Reaches world (body x).run s (.ok (.inl x')) s')
    (hl : Reaches world (Async.tryLoop body x').run s' r s'') :
    Reaches world (Async.tryLoop body x).run s r s'' := by
  obtain ⟨t, ht, hr⟩ := h
  obtain ⟨u, hu, hr'⟩ := hl
  exact ⟨t ++ u, .again (Async.bind_iff.mpr ⟨_, t, [], ht, Async.pure_iff.mpr ⟨rfl, rfl⟩,
    (List.append_nil t).symm⟩) hu, hr.trans hr'⟩

/-! ### Where a computation can be cut off -/

/-- `m` can be cut off, and the world then be `s'`. -/
def Cuts (world : World S ε) (m : Async ε α) (s s' : S) : Prop := ∃ t, m t none ∧ world.Runs s t s'

theorem Cuts.bind {f : α → Async ε β} (hm : Cuts world m s s') : Cuts world (m >>= f) s s' := by
  obtain ⟨t, ht, hr⟩ := hm
  exact ⟨t, Or.inl ⟨ht, rfl⟩, hr⟩

theorem Reaches.cut {f : α → Async ε β} (hm : Reaches world m s a s') (hf : Cuts world (f a) s' s'') :
    Cuts world (m >>= f) s s'' := by
  obtain ⟨t, ht, hr⟩ := hm
  obtain ⟨u, hu, hr'⟩ := hf
  exact ⟨t ++ u, Or.inr ⟨a, t, u, ht, hu, rfl⟩, hr.trans hr'⟩

theorem Reaches.tryCut {m : ExceptT E (Async ε) α} {f : α → ExceptT E (Async ε) β}
    (hm : Reaches world m.run s (.ok a) s') (hf : Cuts world (f a).run s' s'') :
    Cuts world (m >>= f).run s s'' := Reaches.cut hm hf

/-- A loop that is cut off in its first round. -/
theorem Cuts.tryLoop {body : σ → ExceptT E (Async ε) (σ ⊕ α)} {x : σ} (h : Cuts world (body x).run s s') :
    Cuts world (Async.tryLoop body x).run s s' := by
  obtain ⟨t, ht, hr⟩ := h
  exact ⟨t, .stop (Or.inl ⟨ht, rfl⟩), hr⟩

/-- A loop that goes on after its first round, and is cut off later. -/
theorem Reaches.cutAgain {body : σ → ExceptT E (Async ε) (σ ⊕ α)} {x x' : σ}
    (h : Reaches world (body x).run s (.ok (.inl x')) s')
    (hl : Cuts world (Async.tryLoop body x').run s' s'') : Cuts world (Async.tryLoop body x).run s s'' := by
  obtain ⟨t, ht, hr⟩ := h
  obtain ⟨u, hu, hr'⟩ := hl
  exact ⟨t ++ u, .again (Async.bind_iff.mpr ⟨_, t, [], ht, Async.pure_iff.mpr ⟨rfl, rfl⟩,
    (List.append_nil t).symm⟩) hu, hr.trans hr'⟩

/-- What can be cut off can be dropped there. -/
theorem Cuts.dropped {error : E} (h : Cuts world m s s') :
    Reaches world (Async.unlessDropped error m).run s (.error error) s' := by
  obtain ⟨t, ht, hr⟩ := h
  exact ⟨t, Or.inr ⟨ht, rfl⟩, hr⟩

/-- A request that is cut off before it is sent. -/
theorem Cuts.untilOk {event : Option (Except E α) → ε} : Cuts world (Async.untilOk (Async.call event)) s s :=
  ⟨[], .stop (Or.inl ⟨Or.inl ⟨rfl, Or.inl rfl⟩, rfl⟩), .nil⟩

/-- A loop that fails in its first round. -/
theorem Reaches.tryStop {body : σ → ExceptT E (Async ε) (σ ⊕ α)} {x : σ} {e : E}
    (h : Reaches world (body x).run s (.error e) s') :
    Reaches world (Async.tryLoop body x).run s (.error e) s' := by
  obtain ⟨t, ht, hr⟩ := h
  exact ⟨t, .done (Async.bind_iff.mpr ⟨_, t, [], ht, Async.pure_iff.mpr ⟨rfl, rfl⟩,
    (List.append_nil t).symm⟩), hr⟩

theorem Lives.cut {start : S} (h : Lives world m start s) (hc : Cuts world m s s') :
    Lives world m start s' := by
  obtain ⟨t, ht, hr⟩ := hc
  exact h.life ht hr

end World

end Wakuwaku
