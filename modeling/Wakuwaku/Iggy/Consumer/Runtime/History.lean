import Wakuwaku.Iggy.Consumer.Runtime.Server

/-! # Histories of a partition task

A history is the server with what was done there (`history`). A handler call does nothing to the
server, so a computation that only calls handlers adds its calls to the history, while producers append
to the main partition (`triple_calls`). -/

namespace Wakuwaku.Iggy.Consumer

open Wakuwaku.Iggy.Events World

variable {I : IggyHeaders} {P O α : Type}

/-- The handler call of an event. -/
def TaskEvent.call : TaskEvent I P O → Option (Call O)
  | .execute _ call => some call
  | .retry _ call => some call
  | _ => none

/-- The handler calls of a past. -/
def callsOf (past : List (Server I P × TaskEvent I P O)) : List (Call O) :=
  past.filterMap fun e => e.2.call

/-- The server with its past, with only the steps that are `allowed`. -/
abbrev history (published : PolledMessage I P → Prop)
    (allowed : Moment I P O → TaskEvent I P O → Server I P → Prop) :
    World (Moment I P O) (TaskEvent I P O) :=
  (Server.world published).recorded.restrict fun s e s' => allowed s e s'.1

section Calls

variable {past past' : List (Server I P × TaskEvent I P O)} {server : Server I P}
  {event : TaskEvent I P O}

@[simp] theorem callsOf_append : callsOf (past ++ past') = callsOf past ++ callsOf past' :=
  List.filterMap_append

theorem callsOf_eq (past : List (Server I P × TaskEvent I P O)) :
    callsOf past = (past.map Prod.snd).filterMap TaskEvent.call := by
  rw [List.filterMap_map]
  rfl

/-- What is no call adds no call. -/
theorem callsOf_snoc (h : event.call = none) : callsOf (past ++ [(server, event)]) = callsOf past := by
  rw [callsOf_append, callsOf_eq [(server, event)]]
  simp [h]

theorem Server.Step.of_call {server' : Server I P} (h : Server.Step server event server')
    (hc : event.call.isSome) : server' = server := by
  cases h with
  | execute => rfl
  | retry => rfl
  | _ => cases hc

end Calls

/-! ### Triples -/

variable {published : PolledMessage I P → Prop}
  {allowed : Moment I P O → TaskEvent I P O → Server I P → Prop}
  {safe p : Assertion (history published allowed)} {q : α → Assertion (history published allowed)}

/-- A request that is repeated until it succeeds. -/
theorem triple_request {event : Option (Except I.IggyError α) → TaskEvent I P O}
    (hp : ∀ s, p s → safe s) (hq : ∀ a s, q a s → safe s)
    (hok : ∀ s a s', p s → Server.Step s.1 (event (some (.ok a))) s' → allowed s (event (some (.ok a))) s' →
      q a (s', s.2 ++ [(s.1, event (some (.ok a)))]))
    (herror : ∀ s e s', p s → Server.Step s.1 (event (some (.error e))) s' →
      allowed s (event (some (.error e))) s' → p (s', s.2 ++ [(s.1, event (some (.error e)))]))
    (hnone : ∀ s s', p s → Server.Step s.1 (event none) s' → allowed s (event none) s' →
      safe (s', s.2 ++ [(s.1, event none)])) :
    Triple safe p (Async.untilOk (Async.call event)) q := by
  refine Triple.request hp hq ?_ ?_ ?_
  · rintro s a ⟨s', past⟩ hs ⟨⟨hstep, rfl⟩, hallowed⟩
    exact hok s a s' hs hstep hallowed
  · rintro s e ⟨s', past⟩ hs ⟨⟨hstep, rfl⟩, hallowed⟩
    exact herror s e s' hs hstep hallowed
  · rintro s ⟨s', past⟩ hs ⟨⟨hstep, rfl⟩, hallowed⟩
    exact hnone s s' hs hstep hallowed

/-- Something is logged. -/
theorem triple_log {q : Assertion (history published allowed)} {event : TaskEvent I P O}
    (hp : ∀ s, p s → safe s) (hq : ∀ s, q s → safe s)
    (h : ∀ s s', p s → Server.Step s.1 event s' → q (s', s.2 ++ [(s.1, event)])) :
    Triple safe p (log event) fun _ => q := by
  refine Triple.call hp ?_ ?_
  · rintro s a ⟨s', past⟩ hs ⟨⟨hstep, rfl⟩, -⟩
    have := h s s' hs hstep
    exact ⟨hq _ this, this⟩
  · rintro s ⟨s', past⟩ hs ⟨⟨hstep, rfl⟩, -⟩
    exact hq _ (h s s' hs hstep)

/-- Calls are added to the past, and leave what holds of the server. -/
theorem runs_calls {s s' : Moment I P O} {t : List (TaskEvent I P O)}
    (h : (history published allowed).Runs s t s') (ht : ∀ e ∈ t, e.call.isSome) :
    ∃ past, s'.2 = s.2 ++ past ∧ past.map Prod.snd = t ∧
      (∀ pre e post, past = pre ++ e :: post → allowed (e.1, s.2 ++ pre) e.2 e.1) ∧
        ∀ p : Assertion (history published allowed), p s → p (s'.1, s.2) := by
  induction h with
  | nil => exact ⟨[], (List.append_nil _).symm, rfl, by simp, fun p hp => hp⟩
  | move _ hm ih =>
    obtain ⟨past, hpast, ht, hallowed, hp⟩ := ih ht
    exact ⟨past, hm.2.trans hpast, ht, hallowed, fun p hs => p.stable (hp p hs) ⟨hm.1, rfl⟩⟩
  | @step t s e s' _ hs ih =>
    obtain ⟨past, hpast, rfl, hallowed, hp⟩ := ih fun e he => ht e (List.mem_append_left _ he)
    obtain ⟨⟨hstep, hs'⟩, hall⟩ := hs
    have hserver := hstep.of_call (ht e (List.mem_append_right _ (List.mem_singleton_self e)))
    rw [hserver] at hall
    refine ⟨past ++ [(s.1, e)], by rw [hs', hpast, List.append_assoc], by simp, ?_, fun p hs => hserver ▸ hp p hs⟩
    intro pre e' post hsplit
    rcases List.eq_nil_or_concat post with rfl | ⟨init, last, rfl⟩
    · obtain ⟨rfl, hlast⟩ := List.append_inj' hsplit rfl
      obtain rfl := (List.cons.inj hlast).1
      rw [← hpast]
      exact hall
    · rw [List.concat_eq_append, ← List.cons_append, ← List.append_assoc] at hsplit
      exact hallowed pre e' init (List.append_inj' hsplit rfl).1

/-- A computation that only calls handlers. -/
theorem triple_calls {m : Async (TaskEvent I P O) α} (hm : Async.All (fun e => e.call.isSome) m)
    (h : ∀ server past past' t o, p (server, past) → m t o → past'.map Prod.snd = t →
      (∀ pre e post, past' = pre ++ e :: post → allowed (e.1, past ++ pre) e.2 e.1) →
        safe (server, past ++ past') ∧ ∀ a, o = some a → q a (server, past ++ past')) :
    Triple safe p m q := by
  intro s t o s' hs ht hr
  obtain ⟨past', hpast, hmap, hallowed, hp⟩ := runs_calls hr (hm t o ht)
  have := h s'.1 s.2 past' t o (hp p hs) ht hmap hallowed
  rwa [← hpast] at this

/-! ### What can happen -/

theorem reaches_request {event : Option (Except I.IggyError α) → TaskEvent I P O} {s : Moment I P O}
    (a : α) {s' : Server I P} (hstep : Server.Step s.1 (event (some (.ok a))) s')
    (hallowed : allowed s (event (some (.ok a))) s') :
    Reaches (history published allowed) (Async.untilOk (Async.call event)) s a
      (s', s.2 ++ [(s.1, event (some (.ok a)))]) :=
  Reaches.untilOk (Reaches.call ⟨⟨hstep, rfl⟩, hallowed⟩)

theorem reaches_log {event : TaskEvent I P O} {s : Moment I P O} {s' : Server I P}
    (hstep : Server.Step s.1 event s') (hallowed : allowed s event s') :
    Reaches (history published allowed) (log event) s () (s', s.2 ++ [(s.1, event)]) :=
  Reaches.call ⟨⟨hstep, rfl⟩, hallowed⟩

/-- A handler call of a retry attempt. -/
theorem runs_retry {start s : Moment I P O} {t : List (TaskEvent I P O)}
    (h : (history published allowed).Runs start t s) (run : List ℕ) (call : Call O)
    (hallowed : allowed s (.retry run call) s.1) : (history published allowed).Runs start
      (t ++ [.retry run call]) (s.1, s.2 ++ [(s.1, .retry run call)]) :=
  h.step ⟨⟨.retry, rfl⟩, hallowed⟩

/-- A round of attempts. -/
theorem reaches_runDueKeys {task : PartitionTask I P O} {state : RetryState P} {due : List UInt64}
    (started finished : ℕ) (hdue : due.Perm (state.dueKeys started)) {s : Moment I P O}
    {r : RetryState P × List Outcome} {server : Server I P} {past : List (Server I P × TaskEvent I P O)}
    (h : Reaches (history published allowed)
      ((runDueRuns task.handlers state due finished).label fun e => TaskEvent.retry e.1 e.2) s r (server, past))
    (hallowed : allowed (server, past) (.ran r.2) server) : Reaches (history published allowed)
      (task.runDueKeys state) s r.1 (server, past ++ [(server, .ran r.2)]) := by
  obtain ⟨state', outcomes⟩ := r
  refine Reaches.bind (Reaches.choose trivial) (Reaches.bind (Reaches.choose hdue) ?_)
  refine Reaches.bind (Reaches.choose trivial) (Reaches.bind h ?_)
  exact Reaches.bind (reaches_log .ran hallowed) Reaches.pure

/-- A round of attempts is cut off. -/
theorem cuts_runDueKeys {task : PartitionTask I P O} {state : RetryState P} {due : List UInt64}
    (started finished : ℕ) (hdue : due.Perm (state.dueKeys started)) {s s' : Moment I P O}
    (h : Cuts (history published allowed)
      ((runDueRuns task.handlers state due finished).label fun e => TaskEvent.retry e.1 e.2) s s') :
    Cuts (history published allowed) (task.runDueKeys state) s s' := by
  refine Reaches.cut (Reaches.choose trivial) (Reaches.cut (Reaches.choose hdue) ?_)
  exact Reaches.cut (Reaches.choose trivial) (Cuts.bind h)

end Wakuwaku.Iggy.Consumer
