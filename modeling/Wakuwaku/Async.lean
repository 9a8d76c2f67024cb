import Mathlib.Data.List.Basic

/-! # Awaiting computations

An awaiting computation is given by what it can do: the events it has left so far, together with its
result if it has returned. A computation that has not returned is still running, or was cut off. The
operations are those of asynchronous code: sequence, a request that the environment answers, a loop,
and running many computations side by side, whose events interleave. -/

namespace Wakuwaku

/-! ### Interleavings -/

/-- `t` interleaves `u` and `v`. -/
inductive Interleave {ε : Type} : List ε → List ε → List ε → Prop where
  | nil : Interleave [] [] []
  | left {e u v t} (h : Interleave u v t) : Interleave (e :: u) v (e :: t)
  | right {e u v t} (h : Interleave u v t) : Interleave u (e :: v) (e :: t)

namespace Interleave

variable {ε : Type} {u v t : List ε}

theorem mem_iff (h : Interleave u v t) {e : ε} : e ∈ t ↔ e ∈ u ∨ e ∈ v := by
  induction h with
  | nil => simp
  | left h ih => simp only [List.mem_cons, ih, or_assoc]
  | right h ih => simp only [List.mem_cons, ih, or_left_comm]

theorem perm (h : Interleave u v t) : t.Perm (u ++ v) := by
  induction h with
  | nil => exact .nil
  | left h ih => exact ih.cons _
  | right h ih => exact (ih.cons _).trans List.perm_middle.symm

theorem swap (h : Interleave u v t) : Interleave v u t := by
  induction h with
  | nil => exact .nil
  | left h ih => exact .right ih
  | right h ih => exact .left ih

theorem nil_right : ∀ u : List ε, Interleave u [] u
  | [] => .nil
  | _ :: u => .left (nil_right u)

theorem append : ∀ (u v : List ε), Interleave u v (u ++ v)
  | [], [] => .nil
  | [], _ :: v => .right (append [] v)
  | _ :: u, v => .left (append u v)

theorem sublist_left (h : Interleave u v t) : u.Sublist t := by
  induction h with
  | nil => exact .slnil
  | left h ih => exact ih.cons_cons _
  | right h ih => exact ih.cons _

theorem sublist_right (h : Interleave u v t) : v.Sublist t := h.swap.sublist_left

/-- What holds within the parts, and between them both ways, holds in an interleaving. -/
theorem pairwise {r : ε → ε → Prop} (h : Interleave u v t) (hu : u.Pairwise r) (hv : v.Pairwise r)
    (huv : ∀ a ∈ u, ∀ b ∈ v, r a b ∧ r b a) : t.Pairwise r := by
  induction h with
  | nil => exact .nil
  | left h ih =>
    obtain ⟨he, hu⟩ := List.pairwise_cons.mp hu
    refine List.pairwise_cons.mpr ⟨fun b hb => ?_, ih hu hv fun a ha => huv a (List.mem_cons_of_mem _ ha)⟩
    exact (h.mem_iff.mp hb).elim (he b) fun hb => (huv _ List.mem_cons_self b hb).1
  | right h ih =>
    obtain ⟨he, hv⟩ := List.pairwise_cons.mp hv
    refine List.pairwise_cons.mpr ⟨fun b hb => ?_, ih hu hv fun a ha b hb => huv a ha b (List.mem_cons_of_mem _ hb)⟩
    exact (h.mem_iff.mp hb).elim (fun hb => (huv b hb _ List.mem_cons_self).2) (he b)

end Interleave

/-! ### Computations -/

/-- What a computation can do: its events so far, and its result once it has returned. -/
def Async (ε α : Type) : Type := List ε → Option α → Prop

namespace Async

variable {ε δ α β σ : Type}

/-- Return at once. -/
def ret (a : α) : Async ε α := fun t o => t = [] ∧ ∀ b, o = some b → b = a

/-- Go on with the result. -/
def andThen (m : Async ε α) (f : α → Async ε β) : Async ε β := fun t o =>
  (m t none ∧ o = none) ∨ ∃ a u v, m u (some a) ∧ f a v o ∧ t = u ++ v

instance : Monad (Async ε) where
  pure := ret
  bind := andThen

/-- A request that the environment answers as it likes, or that is cut off before its answer. -/
def call (event : Option α → ε) : Async ε α := fun t o =>
  (o = none ∧ (t = [] ∨ t = [event none])) ∨ ∃ a, t = [event (some a)] ∧ (o = none ∨ o = some a)

/-- Repeat `body` until it gives a result. -/
inductive loop (body : σ → Async ε (σ ⊕ α)) : σ → Async ε α where
  | stop {s t} (h : body s t none) : loop body s t none
  | done {s t a} (h : body s t (some (.inr a))) : loop body s t (some a)
  | again {s s' t u o} (h : body s t (some (.inl s'))) (hl : loop body s' u o) :
    loop body s (t ++ u) o

/-- Repeat `body` until it gives a result or fails. -/
def tryLoop {E : Type} (body : σ → ExceptT E (Async ε) (σ ⊕ α)) (s : σ) : ExceptT E (Async ε) α :=
  .mk (loop (fun s => do
    match ← (body s).run with
    | .error e => return .inr (.error e)
    | .ok (.inl s') => return .inl s'
    | .ok (.inr a) => return .inr (.ok a)) s)

/-- Repeat a request until it succeeds. -/
def untilOk {E : Type} (m : Async ε (Except E α)) : Async ε α :=
  loop (fun _ => do
    match ← m with
    | .ok a => return .inr a
    | .error _ => return .inl ()) ()

/-- Some value with `p`. -/
def choose (p : α → Prop) : Async ε α := fun t o => t = [] ∧ ∀ a, o = some a → p a

/-- `m`, or an error if it is dropped unfinished. -/
def unlessDropped {E : Type} (error : E) (m : Async ε α) : ExceptT E (Async ε) α :=
  .mk fun t o => (∃ a, m t a ∧ o = a.map .ok) ∨ m t none ∧ o = some (.error error)

/-- Run computations side by side, until all have returned. -/
def joinAll : List (Async ε α) → Async ε (List α)
  | [] => ret []
  | m :: ms => fun t o => ∃ u v a as, m u a ∧ joinAll ms v as ∧ Interleave u v t ∧
      o = a.bind fun a => as.map fun as => a :: as

/-- Run two computations side by side, until both have returned. -/
def join (m : Async ε α) (n : Async ε β) : Async ε (α × β) := fun t o =>
  ∃ u v a b, m u a ∧ n v b ∧ Interleave u v t ∧ o = a.bind fun a => b.map fun b => (a, b)

/-- Rename the events. -/
def label (f : ε → δ) (m : Async ε α) : Async δ α := fun t o => ∃ u, m u o ∧ t = u.map f

/-! ### Finished computations -/

variable {t : List ε}

theorem pure_iff {a b : α} : (pure a : Async ε α) t (some b) ↔ t = [] ∧ b = a := by
  show t = [] ∧ (∀ c, some b = some c → c = a) ↔ _
  simp

theorem bind_iff {m : Async ε α} {f : α → Async ε β} {b : β} :
    (m >>= f) t (some b) ↔ ∃ a u v, m u (some a) ∧ f a v (some b) ∧ t = u ++ v := by
  show _ ∨ _ ↔ _
  simp

theorem call_iff {event : Option α → ε} {a : α} :
    call event t (some a) ↔ t = [event (some a)] := by
  unfold call
  simp

/-- A computation that can fail has returned: so have its two parts. -/
theorem tryBind_iff {E : Type} {m : ExceptT E (Async ε) α} {f : α → ExceptT E (Async ε) β} {b : β} :
    (m >>= f).run t (some (.ok b)) ↔
      ∃ a u v, m.run u (some (.ok a)) ∧ (f a).run v (some (.ok b)) ∧ t = u ++ v := by
  refine bind_iff.trans ⟨?_, ?_⟩
  · rintro ⟨r, u, v, hm, hf, rfl⟩
    cases r with
    | error e => cases (pure_iff.mp hf).2
    | ok a => exact ⟨a, u, v, hm, hf, rfl⟩
  · rintro ⟨a, u, v, hm, hf, rfl⟩
    exact ⟨.ok a, u, v, hm, hf, rfl⟩

theorem tryPure_iff {E : Type} {a b : α} :
    (pure a : ExceptT E (Async ε) α).run t (some (.ok b)) ↔ t = [] ∧ b = a :=
  pure_iff.trans (by rw [Except.ok.injEq])

theorem join_iff {m : Async ε α} {n : Async ε β} {a : α} {b : β} :
    join m n t (some (a, b)) ↔ ∃ u v, m u (some a) ∧ n v (some b) ∧ Interleave u v t := by
  constructor
  · rintro ⟨u, v, x, y, hm, hn, ht, ho⟩
    cases x with
    | none => cases ho
    | some x =>
      cases y with
      | none => cases ho
      | some y =>
        cases ho
        exact ⟨u, v, hm, hn, ht⟩
  · rintro ⟨u, v, hm, hn, ht⟩
    exact ⟨u, v, some a, some b, hm, hn, ht, rfl⟩

theorem joinAll_nil_iff {as : List α} :
    joinAll ([] : List (Async ε α)) t (some as) ↔ t = [] ∧ as = [] := pure_iff

theorem joinAll_cons_iff {m : Async ε α} {ms : List (Async ε α)} {l : List α} :
    joinAll (m :: ms) t (some l) ↔ ∃ u v a as, m u (some a) ∧ joinAll ms v (some as) ∧
      Interleave u v t ∧ l = a :: as := by
  constructor
  · rintro ⟨u, v, a, as, hm, hms, ht, hl⟩
    cases a with
    | none => cases hl
    | some a =>
      cases as with
      | none => cases hl
      | some as =>
        cases hl
        exact ⟨u, v, a, as, hm, hms, ht, rfl⟩
  · rintro ⟨u, v, a, as, hm, hms, ht, rfl⟩
    exact ⟨u, v, some a, some as, hm, hms, ht, rfl⟩

/-- Each of the computations has returned its result. -/
theorem exists_of_joinAll {m : δ → Async ε α} : ∀ {l : List δ} {t : List ε} {as : List α},
    joinAll (l.map m) t (some as) → as.length = l.length ∧ ∀ e ∈ l.zip as, ∃ u, m e.1 u (some e.2)
  | [], t, as, h => by
    obtain ⟨-, rfl⟩ := joinAll_nil_iff.mp h
    exact ⟨rfl, fun e he => absurd he List.not_mem_nil⟩
  | d :: l, t, as, h => by
    obtain ⟨u, v, a, as, hu, hv, -, rfl⟩ := joinAll_cons_iff.mp h
    obtain ⟨hlen, hall⟩ := exists_of_joinAll hv
    refine ⟨by simp [hlen], fun e he => ?_⟩
    rcases List.mem_cons.mp he with rfl | he
    · exact ⟨u, hu⟩
    · exact hall e he

/-- Computations can return side by side, one after the other. -/
theorem joinAll_of_forall {m : δ → Async ε α} (f : δ → List ε) (g : δ → α) : ∀ {l : List δ},
    (∀ d ∈ l, m d (f d) (some (g d))) → joinAll (l.map m) (l.flatMap f) (some (l.map g))
  | [], _ => joinAll_nil_iff.mpr ⟨rfl, rfl⟩
  | d :: l, h => joinAll_cons_iff.mpr ⟨f d, l.flatMap f, g d, l.map g, h d List.mem_cons_self,
      joinAll_of_forall f g fun d' hd' => h d' (List.mem_cons_of_mem d hd'), .append _ _, rfl⟩

/-- Everything that was done side by side was done by one of the computations. -/
theorem exists_parts_of_joinAll {m : δ → Async ε α} : ∀ {l : List δ} {t : List ε} {as : List α},
    joinAll (l.map m) t (some as) → ∃ parts : List ((δ × α) × List ε), parts.map Prod.fst = l.zip as ∧
      (∀ part ∈ parts, m part.1.1 part.2 (some part.1.2) ∧ part.2.Sublist t) ∧
        ∀ e ∈ t, ∃ part ∈ parts, e ∈ part.2
  | [], t, as, h => by
    obtain ⟨rfl, rfl⟩ := joinAll_nil_iff.mp h
    exact ⟨[], rfl, by simp, by simp⟩
  | d :: l, t, as, h => by
    obtain ⟨u, v, a, as, hu, hv, ht, rfl⟩ := joinAll_cons_iff.mp h
    obtain ⟨parts, hparts, hall, hmem⟩ := exists_parts_of_joinAll hv
    refine ⟨((d, a), u) :: parts, by simp [hparts], fun part hp => ?_, fun e he => ?_⟩
    · rcases List.mem_cons.mp hp with rfl | hp
      · exact ⟨hu, ht.sublist_left⟩
      · exact (hall part hp).imp_right fun h => h.trans ht.sublist_right
    · rcases ht.mem_iff.mp he with he | he
      · exact ⟨_, List.mem_cons_self, he⟩
      · obtain ⟨part, hp, he⟩ := hmem e he
        exact ⟨part, List.mem_cons_of_mem _ hp, he⟩

/-- The result of a loop is the result of its last round. -/
theorem exists_last {body : σ → Async ε (σ ⊕ α)} {s : σ} {a : α} (h : loop body s t (some a)) :
    ∃ s' u, body s' u (some (.inr a)) := by
  generalize ho : some a = o at h
  induction h with
  | stop hb => cases ho
  | done hb => cases ho; exact ⟨_, _, hb⟩
  | again hb hl ih => exact ih ho

/-! ### Properties of all events -/

/-- Whatever `m` does, its events satisfy `p`. -/
def All (p : ε → Prop) (m : Async ε α) : Prop := ∀ t o, m t o → ∀ e ∈ t, p e

section All

variable {p : ε → Prop} {m : Async ε α}

theorem all_pure (a : α) : All p (pure a : Async ε α) := by
  rintro t o ⟨rfl, -⟩ e he
  cases he

theorem All.bind {f : α → Async ε β} (hm : All p m) (hf : ∀ a, All p (f a)) : All p (m >>= f) := by
  rintro t o (⟨hn, -⟩ | ⟨a, u, v, hu, hv, rfl⟩) e he
  · exact hm _ _ hn e he
  · rcases List.mem_append.mp he with he | he
    · exact hm _ _ hu e he
    · exact hf a _ _ hv e he

theorem all_call {event : Option α → ε} (h : ∀ a, p (event a)) : All p (call event) := by
  rintro t o (⟨-, rfl | rfl⟩ | ⟨a, rfl, -⟩) e he
  · cases he
  · rw [List.mem_singleton.mp he]
    exact h none
  · rw [List.mem_singleton.mp he]
    exact h (some a)

theorem all_loop {body : σ → Async ε (σ ⊕ α)} (h : ∀ s, All p (body s)) (s : σ) :
    All p (loop body s) := by
  intro t o hl
  induction hl with
  | stop hb => exact h _ _ _ hb
  | done hb => exact h _ _ _ hb
  | again hb hl ih =>
    intro e he
    rcases List.mem_append.mp he with he | he
    · exact h _ _ _ hb e he
    · exact ih e he

theorem all_label {m : Async δ α} {f : δ → ε} (h : ∀ e, p (f e)) : All p (label f m) := by
  rintro t o ⟨u, -, rfl⟩ e he
  obtain ⟨d, -, rfl⟩ := List.mem_map.mp he
  exact h d

/-- Every event of computations side by side is one of a computation. -/
theorem exists_of_mem_joinAll : ∀ {ms : List (Async ε α)} {t : List ε} {o : Option (List α)} {e : ε},
    joinAll ms t o → e ∈ t → ∃ m ∈ ms, ∃ u o, m u o ∧ e ∈ u
  | [], t, o, e, ⟨ht, _⟩, he => by
    rw [ht] at he
    cases he
  | m :: ms, t, o, e, ⟨u, v, a, as, hu, hv, ht, _⟩, he => by
    rcases ht.mem_iff.mp he with he | he
    · exact ⟨m, List.mem_cons_self, u, a, hu, he⟩
    · obtain ⟨m', hm', h⟩ := exists_of_mem_joinAll hv he
      exact ⟨m', List.mem_cons_of_mem _ hm', h⟩

/-- What holds within computations, and between any two of them, holds when they run side by side. -/
theorem pairwise_joinAll {m : δ → Async ε α} {r : ε → ε → Prop} : ∀ {l : List δ} {t : List ε}
    {o : Option (List α)}, l.Nodup → (∀ d ∈ l, ∀ u o, m d u o → u.Pairwise r) →
      (∀ d ∈ l, ∀ d' ∈ l, d ≠ d' → ∀ u o u' o', m d u o → m d' u' o' → ∀ e ∈ u, ∀ e' ∈ u', r e e') →
        joinAll (l.map m) t o → t.Pairwise r
  | [], t, o, _, _, _, ⟨ht, _⟩ => ht ▸ .nil
  | d :: l, t, o, hnd, hown, hcross, ⟨u, v, a, as, hu, hv, ht, _⟩ => by
    obtain ⟨hd, hnd⟩ := List.nodup_cons.mp hnd
    have hrest := pairwise_joinAll hnd (fun d' hd' => hown d' (List.mem_cons_of_mem _ hd'))
      (fun d' hd' d'' hd'' => hcross d' (List.mem_cons_of_mem _ hd') d'' (List.mem_cons_of_mem _ hd'')) hv
    refine ht.pairwise (hown d List.mem_cons_self u a hu) hrest fun e he e' he' => ?_
    obtain ⟨_, hm, u', o', hu', he'⟩ := exists_of_mem_joinAll hv he'
    obtain ⟨d', hd', rfl⟩ := List.mem_map.mp hm
    have hne : d ≠ d' := fun heq => hd (heq ▸ hd')
    exact ⟨hcross d List.mem_cons_self d' (List.mem_cons_of_mem _ hd') hne u a u' o' hu hu' e he e' he',
      hcross d' (List.mem_cons_of_mem _ hd') d List.mem_cons_self hne.symm u' o' u a hu' hu e' he' e he⟩

theorem all_joinAll {ms : List (Async ε α)} (h : ∀ m ∈ ms, All p m) : All p (joinAll ms) := by
  intro t o ht e he
  obtain ⟨m, hm, u, o', hu, he⟩ := exists_of_mem_joinAll ht he
  exact h m hm _ _ hu e he

end All

/-! ### What a computation can return -/

/-- `m` can return a result with `q`, by events with `p`. -/
def CanReturn (p : ε → Prop) (q : α → Prop) (m : Async ε α) : Prop :=
  ∃ t a, m t (some a) ∧ (∀ e ∈ t, p e) ∧ q a

section CanReturn

variable {p : ε → Prop} {q : α → Prop}

theorem canReturn_pure {a : α} (ha : q a) : CanReturn p q (pure a : Async ε α) :=
  ⟨[], a, pure_iff.mpr ⟨rfl, rfl⟩, by simp, ha⟩

theorem CanReturn.bind {m : Async ε α} {f : α → Async ε β} {r : β → Prop} (hm : CanReturn p q m)
    (hf : ∀ a, q a → CanReturn p r (f a)) : CanReturn p r (m >>= f) := by
  obtain ⟨u, a, hu, hpu, ha⟩ := hm
  obtain ⟨v, b, hv, hpv, hb⟩ := hf a ha
  refine ⟨u ++ v, b, bind_iff.mpr ⟨a, u, v, hu, hv, rfl⟩, fun e he => ?_, hb⟩
  exact (List.mem_append.mp he).elim (hpu e) (hpv e)

theorem canReturn_call {event : Option α → ε} {a : α} (he : p (event (some a))) (ha : q a) :
    CanReturn p q (call event) :=
  ⟨[event (some a)], a, call_iff.mpr rfl, by simpa using he, ha⟩

theorem canReturn_done {body : σ → Async ε (σ ⊕ α)} {s : σ}
    (h : CanReturn p (fun r => ∃ a, r = .inr a ∧ q a) (body s)) : CanReturn p q (loop body s) := by
  obtain ⟨t, -, ht, hp, a, rfl, ha⟩ := h
  exact ⟨t, a, .done ht, hp, ha⟩

theorem canReturn_again {body : σ → Async ε (σ ⊕ α)} {s s' : σ}
    (h : CanReturn p (fun r => r = .inl s') (body s)) (hl : CanReturn p q (loop body s')) :
    CanReturn p q (loop body s) := by
  obtain ⟨t, -, ht, hp, rfl⟩ := h
  obtain ⟨u, a, hu, hpu, ha⟩ := hl
  exact ⟨t ++ u, a, .again ht hu, fun e he => (List.mem_append.mp he).elim (hp e) (hpu e), ha⟩

theorem canReturn_join {m : Async ε α} {n : Async ε β} {r : β → Prop} (hm : CanReturn p q m)
    (hn : CanReturn p r n) : CanReturn p (fun ab => q ab.1 ∧ r ab.2) (join m n) := by
  obtain ⟨u, a, hu, hpu, ha⟩ := hm
  obtain ⟨v, b, hv, hpv, hb⟩ := hn
  refine ⟨u ++ v, (a, b), join_iff.mpr ⟨u, v, hu, hv, .append u v⟩, fun e he => ?_, ha, hb⟩
  exact (List.mem_append.mp he).elim (hpu e) (hpv e)

theorem canReturn_joinAll {ms : List (Async ε α)} (h : ∀ m ∈ ms, CanReturn p q m) :
    CanReturn p (fun as => as.length = ms.length ∧ ∀ a ∈ as, q a) (joinAll ms) := by
  induction ms with
  | nil => exact canReturn_pure ⟨rfl, by simp⟩
  | cons m ms ih =>
    obtain ⟨u, a, hu, hpu, ha⟩ := h m List.mem_cons_self
    obtain ⟨v, as, hv, hpv, hlen, has⟩ := ih fun m hm => h m (List.mem_cons_of_mem _ hm)
    refine ⟨u ++ v, a :: as, joinAll_cons_iff.mpr ⟨u, v, a, as, hu, hv, .append u v, rfl⟩,
      fun e he => (List.mem_append.mp he).elim (hpu e) (hpv e), by simp [hlen], ?_⟩
    simpa using ⟨ha, has⟩

end CanReturn

end Async

end Wakuwaku
