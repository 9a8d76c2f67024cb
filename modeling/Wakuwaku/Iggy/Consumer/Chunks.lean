import Wakuwaku.Iggy.Consumer.Handler

/-! # The chunks of a run tile it

Every call of a handler gets the slice of the reduced run right after the chunks that are settled
before it: those whose call ended in something else than a transient error (`Tiled`). So nothing is
skipped or handed over twice, a run that is done was handed over whole, and a run that failed leaves
the events from the failed chunk on. -/

namespace Wakuwaku.Iggy.Consumer

open Wakuwaku.Iggy.Partition

variable {P O : Type}

/-! ### Calls that settle a chunk -/

/-- The chunk will be handed over again. -/
def Call.transient (call : Call O) : Bool :=
  match call.result with
  | some (.error error) => error.errorClass == .transient
  | _ => false

/-- The handler took the chunk. -/
def Call.handled (call : Call O) : Prop := call.result = some (.ok ())

/-- The handler gave the chunk up. -/
def Call.dropped (call : Call O) : Prop :=
  ∃ source, call.result = some (.error ⟨.unrecoverable, source⟩)

/-- What a call left of its chunk: nothing, or an error with which the run fails. -/
def Call.Ended (call : Call O) : Option String → Prop
  | none => call.handled ∨ call.dropped
  | some source => call.result = some (.error ⟨.retryable, source⟩)

/-- The calls without those that ended in a transient error. -/
def settled (t : List (Call O)) : List (Call O) := t.filter (!·.transient)

/-- The events of the settled chunks. -/
def settledEvents (t : List (Call O)) : List O := (settled t).flatMap (·.chunk)

/-- The calls of a handler tile `events`, with outcome `o`. -/
structure Tiled (h : Registered P O) (events : List h.Target) (t : List (Call O))
    (o : Option (RunResult P)) : Prop where
  /-- Every call gets the next slice, of at most `MAX_BATCH` events. -/
  slice : ∀ pre c post, t = pre ++ c :: post → c.tag = h.tag ∧ c.chunk ≠ [] ∧
    c.chunk.length ≤ h.maxBatch ∧ settledEvents pre ++ c.chunk <+: events.map h.observe
  /-- After a transient error the same chunk comes again. -/
  again : ∀ pre c c' post, t = pre ++ c :: c' :: post → c.transient = true → c'.chunk = c.chunk
  /-- The calls before another are transient failures, or settled their chunk. -/
  before : ∀ pre c c' post, t = pre ++ c :: c' :: post → c.transient = true ∨ c.handled ∨ c.dropped
  /-- A run that is done was handed over whole. -/
  done : o = some .done → settledEvents t = events.map h.observe ∧
    ∀ c ∈ settled t, c.handled ∨ c.dropped
  /-- A run that failed leaves the events from the failed chunk on. -/
  failed : ∀ error remainder, o = some (.failed error remainder) → ∃ pre c, t = pre ++ [c] ∧
    c.result = some (.error ⟨.retryable, error⟩) ∧ (∀ c' ∈ settled pre, c'.handled ∨ c'.dropped) ∧
      settledEvents pre = (events.take (settledEvents pre).length).map h.observe ∧
        remainder = h.encode (events.drop (settledEvents pre).length)

namespace Chunks

section Calls

variable {t u : List (Call O)} {c : Call O}

@[simp] theorem settled_append : settled (t ++ u) = settled t ++ settled u := List.filter_append ..

@[simp] theorem settledEvents_append : settledEvents (t ++ u) = settledEvents t ++ settledEvents u := by
  simp only [settledEvents, settled_append, List.flatMap_append]

theorem settled_eq_nil (h : ∀ c ∈ t, c.transient = true) : settled t = [] :=
  List.filter_eq_nil_iff.mpr fun c hc => by simp [h c hc]

theorem settledEvents_eq_nil (h : ∀ c ∈ t, c.transient = true) : settledEvents t = [] := by
  rw [settledEvents, settled_eq_nil h, List.flatMap_nil]

theorem settled_singleton (h : c.transient = false) : settled [c] = [c] := by
  simp [settled, h]

theorem not_transient (h : c.handled ∨ c.dropped) : c.transient = false := by
  rcases h with h | ⟨source, h⟩
  · simp [Call.transient, show c.result = _ from h]
  · simp [Call.transient, h]

/-- A split of two traces one after another splits one of them. -/
theorem split_append {pre post : List (Call O)} (h : t ++ u = pre ++ c :: post) :
    (∃ post', t = pre ++ c :: post' ∧ post = post' ++ u) ∨
      ∃ pre', pre = t ++ pre' ∧ u = pre' ++ c :: post := by
  rcases List.append_eq_append_iff.mp h with ⟨pre', hpre, hu⟩ | ⟨post', ht, hpost⟩
  · exact Or.inr ⟨pre', hpre, hu⟩
  · cases post' with
    | nil => exact Or.inr ⟨[], by simpa using ht.symm, by simpa using hpost.symm⟩
    | cons d post' =>
      rw [List.cons_append, List.cons.injEq] at hpost
      obtain ⟨rfl, rfl⟩ := hpost
      exact Or.inl ⟨post', ht, rfl⟩

end Calls

/-- Nothing is before the only call. -/
theorem before_single {c d : Call O} {pre post : List (Call O)} (h : [d] = pre ++ c :: post) :
    ∀ c' ∈ pre, c'.transient = true := by
  obtain ⟨rfl, -⟩ : pre = [] ∧ _ := by
    cases pre with
    | nil => exact ⟨rfl, trivial⟩
    | cons e pre => simp at h
  exact fun c' hc' => absurd hc' List.not_mem_nil

/-! ### One chunk -/

/-- The calls for one chunk: transient failures, and a last call that ends the chunk. -/
structure OneChunk (h : Registered P O) (chunk : List h.Target) (t : List (Call O))
    (o : Option (Option String)) : Prop where
  call : ∀ c ∈ t, c.tag = h.tag ∧ c.chunk = chunk.map h.observe
  before : ∀ pre c post, t = pre ++ c :: post → ∀ c' ∈ pre, c'.transient = true
  ended : ∀ error, o = some error → ∃ pre c, t = pre ++ [c] ∧ c.Ended error

variable {h : Registered P O}

/-- One call, and what follows it. -/
theorem handle_spec {chunk : List h.Target} {t : List (Call O)} {o : Option (Unit ⊕ Option String)}
    (ht : (do let result ← h.handle chunk; return Registered.afterHandle result :
      Async (Call O) (Unit ⊕ Option String)) t o) :
    t = [] ∧ o = none ∨ ∃ result, t = [⟨h.tag, chunk.map h.observe, result⟩] ∧
      ∀ r, o = some r → ∃ a, result = some a ∧ r = Registered.afterHandle a := by
  rcases ht with ⟨hc, rfl⟩ | ⟨a, u, v, hc, hp, rfl⟩
  · rcases hc with ⟨-, rfl | rfl⟩ | ⟨a, rfl, -⟩
    · exact Or.inl ⟨rfl, rfl⟩
    · exact Or.inr ⟨none, rfl, by simp⟩
    · exact Or.inr ⟨some a, rfl, by simp⟩
  · obtain rfl := Async.call_iff.mp hc
    obtain ⟨rfl, hr⟩ := hp
    exact Or.inr ⟨some a, rfl, fun r hr' => ⟨a, rfl, hr r hr'⟩⟩

theorem afterHandle_inl {a : Except HandleError Unit} (ha : Registered.afterHandle a = .inl ()) :
    ∃ source, a = .error ⟨.transient, source⟩ := by
  rcases a with ⟨_ | _ | _, source⟩ | _
  · exact ⟨source, rfl⟩
  · cases ha
  · cases ha
  · cases ha

theorem afterHandle_inr {a : Except HandleError Unit} {error : Option String} {tag : Events.EventTypeTag}
    {chunk : List O} (ha : Registered.afterHandle a = .inr error) :
    (⟨tag, chunk, some a⟩ : Call O).Ended error := by
  rcases a with ⟨_ | _ | _, source⟩ | ⟨⟨⟩⟩
  · cases ha
  · cases ha
    rfl
  · cases ha
    exact Or.inr ⟨source, rfl⟩
  · cases ha
    exact Or.inl rfl

theorem handleChunk_spec {chunk : List h.Target} {t : List (Call O)} {o : Option (Option String)}
    (ht : h.handleChunk chunk t o) : OneChunk h chunk t o := by
  unfold Registered.handleChunk at ht
  generalize () = s at ht
  induction ht with
  | stop hb =>
    rcases handle_spec hb with ⟨rfl, -⟩ | ⟨result, rfl, -⟩
    · exact ⟨by simp, by simp, by simp⟩
    · exact ⟨by simp, fun _ _ _ he => (before_single he), by simp⟩
  | done hb =>
    rcases handle_spec hb with ⟨-, ho⟩ | ⟨result, rfl, hr⟩
    · cases ho
    · obtain ⟨a, rfl, ha⟩ := hr _ rfl
      refine ⟨by simp, fun _ _ _ he => (before_single he), ?_⟩
      intro error ho
      cases ho
      exact ⟨[], _, rfl, afterHandle_inr ha.symm⟩
  | again hb hl ih =>
    rcases handle_spec hb with ⟨-, ho⟩ | ⟨result, rfl, hr⟩
    · cases ho
    · obtain ⟨a, rfl, ha⟩ := hr _ rfl
      obtain ⟨source, rfl⟩ := afterHandle_inl ha.symm
      refine ⟨?_, ?_, ?_⟩
      · rintro c hc
        rcases List.mem_append.mp hc with hc | hc
        · rw [List.mem_singleton.mp hc]
          exact ⟨rfl, rfl⟩
        · exact ih.call c hc
      · rintro pre c post he c' hc'
        rcases split_append he with ⟨post', he', -⟩ | ⟨pre', rfl, he'⟩
        · exact before_single he' c' hc'
        · rcases List.mem_append.mp hc' with hc' | hc'
          · rw [List.mem_singleton.mp hc']
            rfl
          · exact ih.before pre' c post he' c' hc'
      · intro error ho
        obtain ⟨pre, c, rfl, hc⟩ := ih.ended error ho
        exact ⟨_ :: pre, c, rfl, hc⟩

namespace OneChunk

variable {chunk rest : List h.Target} {t u : List (Call O)} {o : Option (Option String)}
  {r : Option (RunResult P)}

/-- The calls before another are transient failures of the same chunk. -/
theorem before_again (hc : OneChunk h chunk t o) {pre post : List (Call O)} {c c' : Call O}
    (ht : t = pre ++ c :: c' :: post) : c.transient = true ∧ c'.chunk = c.chunk := by
  have hsplit : t = (pre ++ [c]) ++ c' :: post := by rw [ht, List.append_assoc]; rfl
  refine ⟨hc.before _ c' post hsplit c (by simp), ?_⟩
  rw [(hc.call c (by simp [ht])).2, (hc.call c' (by simp [ht])).2]

/-- The calls for a chunk that goes on or is cut off. -/
theorem slice (hc : OneChunk h chunk t o) (hne : chunk ≠ []) (hlen : chunk.length ≤ h.maxBatch)
    {pre post : List (Call O)} {c : Call O} (ht : t = pre ++ c :: post) : c.tag = h.tag ∧
      c.chunk ≠ [] ∧ c.chunk.length ≤ h.maxBatch ∧
        settledEvents pre ++ c.chunk <+: (chunk ++ rest).map h.observe := by
  obtain ⟨htag, hchunk⟩ := hc.call c (by simp [ht])
  rw [settledEvents_eq_nil (hc.before pre c post ht), hchunk, List.nil_append, List.map_append,
    List.length_map]
  exact ⟨htag, by simpa using hne, hlen, List.prefix_append _ _⟩

theorem settledEvents_eq (hc : OneChunk h chunk t (some none)) :
    settledEvents t = chunk.map h.observe ∧ ∀ c ∈ settled t, c.handled ∨ c.dropped := by
  obtain ⟨pre, c, rfl, hend⟩ := hc.ended none rfl
  have hpre := hc.before pre c [] rfl
  have hsettled : settled (pre ++ [c]) = [c] := by
    rw [settled_append, settled_eq_nil hpre, settled_singleton (not_transient hend), List.nil_append]
  rw [settledEvents, hsettled, List.flatMap_singleton, (hc.call c (by simp)).2]
  refine ⟨rfl, fun c' hc' => ?_⟩
  rw [List.mem_singleton.mp hc']
  exact hend

/-- The calls for the chunk at the front tile the events. -/
theorem tiled (hc : OneChunk h chunk t o) (hne : chunk ≠ []) (hlen : chunk.length ≤ h.maxBatch) :
    Tiled h (chunk ++ rest) t none where
  slice _ _ _ ht := hc.slice hne hlen ht
  again _ _ _ _ ht _ := (hc.before_again ht).2
  before _ _ _ _ ht := Or.inl (hc.before_again ht).1
  done ho := by cases ho
  failed _ _ ho := by cases ho

/-- A chunk that fails ends the run. -/
theorem tiled_failed {error : String} (hc : OneChunk h chunk t (some (some error))) (hne : chunk ≠ [])
    (hlen : chunk.length ≤ h.maxBatch) :
    Tiled h (chunk ++ rest) t (some (.failed error (h.encode (chunk ++ rest)))) where
  slice _ _ _ ht := hc.slice hne hlen ht
  again _ _ _ _ ht _ := (hc.before_again ht).2
  before _ _ _ _ ht := Or.inl (hc.before_again ht).1
  done ho := by cases ho
  failed error' remainder ho := by
    cases ho
    obtain ⟨pre, c, rfl, hend⟩ := hc.ended _ rfl
    have hpre := hc.before pre c [] rfl
    refine ⟨pre, c, rfl, hend, ?_, ?_, ?_⟩
    · rw [settled_eq_nil hpre]
      exact fun c' hc' => absurd hc' List.not_mem_nil
    · rw [settledEvents_eq_nil hpre]
      rfl
    · rw [settledEvents_eq_nil hpre]
      rfl

/-- A settled chunk, and the calls for what follows it. -/
theorem tiled_append (hc : OneChunk h chunk t (some none)) (hne : chunk ≠ [])
    (hlen : chunk.length ≤ h.maxBatch) (hr : Tiled h rest u r) : Tiled h (chunk ++ rest) (t ++ u) r := by
  obtain ⟨hevents, hsettled⟩ := hc.settledEvents_eq
  have hfirst : ∀ {pre' : List (Call O)} {c' : Call O}, t = pre' ++ [c'] →
      c'.handled ∨ c'.dropped := by
    intro pre' c' ht
    obtain ⟨pre, c, ht', hend⟩ := hc.ended none rfl
    obtain ⟨-, hcc⟩ := List.append_inj' (ht.symm.trans ht') rfl
    rw [List.singleton_inj.mp hcc]
    exact hend
  constructor
  · intro pre c post he
    rcases split_append he with ⟨post', ht, -⟩ | ⟨pre', rfl, hu⟩
    · exact hc.slice hne hlen ht
    · obtain ⟨h1, h2, h3, h4⟩ := hr.slice pre' c post hu
      refine ⟨h1, h2, h3, ?_⟩
      rw [settledEvents_append, hevents, List.append_assoc, List.map_append]
      exact (List.prefix_append_right_inj _).mpr h4
  · intro pre c c' post he htr
    rcases split_append he with ⟨post', ht, hpost⟩ | ⟨pre', -, hu⟩
    · cases post' with
      | nil =>
        rw [not_transient (hfirst ht)] at htr
        cases htr
      | cons d post' =>
        obtain ⟨rfl, -⟩ := List.cons.inj hpost
        exact (hc.before_again ht).2
    · exact hr.again pre' c c' post hu htr
  · intro pre c c' post he
    rcases split_append he with ⟨post', ht, hpost⟩ | ⟨pre', -, hu⟩
    · cases post' with
      | nil => exact Or.inr (hfirst ht)
      | cons d post' => exact Or.inl (hc.before_again ht).1
    · exact hr.before pre' c c' post hu
  · intro ho
    obtain ⟨h1, h2⟩ := hr.done ho
    rw [settledEvents_append, settled_append, hevents, h1, List.map_append]
    exact ⟨rfl, fun c hc' => (List.mem_append.mp hc').elim (hsettled c) (h2 c)⟩
  · intro error remainder ho
    obtain ⟨pre, c, rfl, hres, hset, htake, hrem⟩ := hr.failed error remainder ho
    refine ⟨t ++ pre, c, (List.append_assoc _ _ _).symm, hres, ?_, ?_, ?_⟩
    · rw [settled_append]
      exact fun c' hc' => (List.mem_append.mp hc').elim (hsettled c') (hset c')
    · rw [settledEvents_append, hevents, List.length_append, List.length_map, List.take_length_add_append,
        List.map_append, ← htake]
    · rw [settledEvents_append, hevents, List.length_append, List.length_map, List.drop_length_add_append]
      exact hrem

end OneChunk

/-! ### The run -/

/-- The chunk from `start` on, and the events after it. -/
theorem chunk_spec {events : List h.Target} {start : ℕ} (hs : start < events.length) :
    (events.drop start).take (min (start + h.maxBatch) events.length - start) ≠ [] ∧
      ((events.drop start).take (min (start + h.maxBatch) events.length - start)).length ≤ h.maxBatch ∧
        events.drop start = (events.drop start).take (min (start + h.maxBatch) events.length - start) ++
          events.drop (min (start + h.maxBatch) events.length) := by
  have hpos := h.maxBatch_pos
  refine ⟨?_, ?_, ?_⟩
  · rw [← List.length_pos_iff, List.length_take, List.length_drop]
    omega
  · rw [List.length_take, List.length_drop]
    omega
  · have hdrop : events.drop (min (start + h.maxBatch) events.length) =
        (events.drop start).drop (min (start + h.maxBatch) events.length - start) := by
      rw [List.drop_drop]
      congr 1
      omega
    rw [hdrop, List.take_append_drop]

/-- One round of the loop: the next chunk, or none if all events were handed over. -/
theorem handleFrom_spec {events : List h.Target} {start : ℕ} {t : List (Call O)}
    {o : Option (ℕ ⊕ RunResult P)} (ht : h.handleFrom events start t o) :
    t = [] ∧ events.drop start = [] ∧ (∀ r, o = some r → r = .inr .done) ∨
      ∃ chunk stop o', chunk ≠ [] ∧ chunk.length ≤ h.maxBatch ∧
        events.drop start = chunk ++ events.drop stop ∧ OneChunk h chunk t o' ∧
          ∀ r, o = some r → o' = some none ∧ r = .inl stop ∨
            ∃ error, o' = some (some error) ∧ r = .inr (.failed error (h.encode (events.drop start))) := by
  unfold Registered.handleFrom at ht
  split_ifs at ht with hs
  · obtain ⟨hne, hlen, hsplit⟩ := chunk_spec (h := h) hs
    refine Or.inr ⟨(events.drop start).take (min (start + h.maxBatch) events.length - start),
      min (start + h.maxBatch) events.length, ?_⟩
    rcases ht with ⟨hn, rfl⟩ | ⟨e, u, v, hu, ⟨rfl, hr⟩, rfl⟩
    · exact ⟨none, hne, hlen, hsplit, handleChunk_spec hn, by simp⟩
    · rw [List.append_nil]
      refine ⟨some e, hne, hlen, hsplit, handleChunk_spec hu, fun r ho => ?_⟩
      have hr := hr r ho
      cases e with
      | none => exact Or.inl ⟨rfl, hr⟩
      | some error => exact Or.inr ⟨error, rfl, hr⟩
  · obtain ⟨rfl, hr⟩ := ht
    exact Or.inl ⟨rfl, List.drop_eq_nil_of_le (Nat.le_of_not_lt hs), hr⟩

theorem tiled_loop {events : List h.Target} {start : ℕ} {t : List (Call O)}
    {o : Option (RunResult P)} (ht : Async.loop (h.handleFrom events) start t o) :
    Tiled h (events.drop start) t o := by
  have hnil : ∀ r : Option (RunResult P), (∀ r', r = some r' → r' = .done) → Tiled h [] [] r := by
    intro r hr
    refine ⟨by simp, by simp, by simp, fun _ => ⟨rfl, by simp [settled]⟩, fun error remainder ho => ?_⟩
    cases hr _ ho
  induction ht with
  | stop hb =>
    rcases handleFrom_spec hb with ⟨rfl, hd, -⟩ | ⟨chunk, stop, o', hne, hlen, hsplit, hc, -⟩
    · rw [hd]
      exact hnil none (by simp)
    · rw [hsplit]
      exact hc.tiled hne hlen
  | done hb =>
    rcases handleFrom_spec hb with ⟨rfl, hd, hr⟩ | ⟨chunk, stop, o', hne, hlen, hsplit, hc, hr⟩
    · rw [hd]
      refine hnil _ fun r' ho => ?_
      cases ho
      exact Sum.inr.inj (hr _ rfl)
    · rcases hr _ rfl with ⟨-, h'⟩ | ⟨error, rfl, h'⟩
      · cases h'
      · rw [Sum.inr.inj h', hsplit]
        exact hc.tiled_failed hne hlen
  | again hb hl ih =>
    rcases handleFrom_spec hb with ⟨-, -, hr⟩ | ⟨chunk, stop, o', hne, hlen, hsplit, hc, hr⟩
    · cases hr _ rfl
    · rcases hr _ rfl with ⟨rfl, h'⟩ | ⟨error, -, h'⟩
      · rw [hsplit]
        exact hc.tiled_append hne hlen (Sum.inl.inj h' ▸ ih)
      · cases h'

/-! ### What a handler can do -/

theorem handleChunk_ok (chunk : List h.Target) :
    h.handleChunk chunk [⟨h.tag, chunk.map h.observe, some (.ok ())⟩] (some none) :=
  .done (Async.bind_iff.mpr ⟨_, [_], [], Async.call_iff.mpr rfl, Async.pure_iff.mpr ⟨rfl, rfl⟩, rfl⟩)

theorem handleChunk_failed (chunk : List h.Target) (error : String) :
    h.handleChunk chunk [⟨h.tag, chunk.map h.observe, some (.error ⟨.retryable, error⟩)⟩]
      (some (some error)) :=
  .done (Async.bind_iff.mpr ⟨_, [_], [], Async.call_iff.mpr rfl, Async.pure_iff.mpr ⟨rfl, rfl⟩, rfl⟩)

/-- A chunk is handed over again after a transient error. -/
theorem handleChunk_again {chunk : List h.Target} {t : List (Call O)} {o : Option (Option String)}
    (ht : h.handleChunk chunk t o) (error : String) : h.handleChunk chunk
      (⟨h.tag, chunk.map h.observe, some (.error ⟨.transient, error⟩)⟩ :: t) o :=
  .again (t := [_])
    (Async.bind_iff.mpr ⟨_, [_], [], Async.call_iff.mpr rfl, Async.pure_iff.mpr ⟨rfl, rfl⟩, rfl⟩) ht

section From

variable {events chunk : List h.Target} {start : ℕ} {t : List (Call O)} (hlt : start < events.length)
  (hchunk : (events.drop start).take (min (start + h.maxBatch) events.length - start) = chunk)
include hlt hchunk

theorem handleFrom_settled (ht : h.handleChunk chunk t (some none)) :
    h.handleFrom events start t (some (.inl (min (start + h.maxBatch) events.length))) := by
  unfold Registered.handleFrom
  rw [if_pos hlt, hchunk]
  exact Async.bind_iff.mpr ⟨none, t, [], ht, Async.pure_iff.mpr ⟨rfl, rfl⟩, (List.append_nil t).symm⟩

theorem handleFrom_failed {error : String} (ht : h.handleChunk chunk t (some (some error))) :
    h.handleFrom events start t (some (.inr (.failed error (h.encode (events.drop start))))) := by
  unfold Registered.handleFrom
  rw [if_pos hlt, hchunk]
  exact Async.bind_iff.mpr
    ⟨some error, t, [], ht, Async.pure_iff.mpr ⟨rfl, rfl⟩, (List.append_nil t).symm⟩

end From

/-- A run of one chunk can fail at its first call. -/
theorem failed_of_call {events : List h.Target} {error : String} (hne : events ≠ [])
    (hlen : events.length ≤ h.maxBatch) : Async.loop (h.handleFrom events) 0
      [⟨h.tag, events.map h.observe, some (.error ⟨.retryable, error⟩)⟩]
      (some (.failed error (h.encode events))) := by
  have hchunk : (events.drop 0).take (min (0 + h.maxBatch) events.length - 0) = events := by
    rw [List.drop_zero, List.take_of_length_le]
    omega
  exact .done (handleFrom_failed (List.length_pos_iff.mpr hne) hchunk (handleChunk_failed events error))

end Chunks

/-! ### Results -/

/-- **Chunked handling loses and repeats nothing**: the calls tile the reduced run, and the remainder
of a failed run is what can be serialized of the events from the failed chunk on. -/
theorem Registered.handleEvents_tiled {h : Registered P O} (run : List (RunRecord P))
    {t : List (Call O)} {o : Option (RunResult P)} (ht : h.handleEvents run t o) :
    Tiled h (h.decode run) t o :=
  Chunks.tiled_loop ht

/-- Three chunks of up to two events: the second is handed over again, and the third fails. -/
theorem Registered.handleEvents_tiled_plain :
    Tiled { Registered.plain ⟨1⟩ (.nonAssociative : Marker ℕ) with maxBatch := 2, maxBatch_pos := Nat.two_pos }
      ([7, 8, 9, 10, 11] : List ℕ)
      [⟨⟨1⟩, [7, 8], some (.ok ())⟩, ⟨⟨1⟩, [9, 10], some (.error ⟨.transient, "busy"⟩)⟩,
        ⟨⟨1⟩, [9, 10], some (.ok ())⟩, ⟨⟨1⟩, [11], some (.error ⟨.retryable, "down"⟩)⟩]
      (some (.failed "down" [11])) :=
  Registered.handleEvents_tiled [⟨7, .nonAssociative⟩, ⟨8, .nonAssociative⟩, ⟨9, .nonAssociative⟩,
    ⟨10, .nonAssociative⟩, ⟨11, .nonAssociative⟩]
    (.again (t := [_]) (Chunks.handleFrom_settled (by decide) rfl (Chunks.handleChunk_ok _))
      (.again (t := [_, _]) (Chunks.handleFrom_settled (by decide) rfl
          (Chunks.handleChunk_again (Chunks.handleChunk_ok _) "busy"))
        (.done (Chunks.handleFrom_failed (by decide) rfl (Chunks.handleChunk_failed _ "down")))))

/-- A handler of numbers that can be read and not written. -/
def Registered.readOnly : Registered ℕ ℕ where
  Target := ℕ
  tag := ⟨1⟩
  topic := "events"
  algebra := (Marker.nonAssociative : Marker ℕ).algebra
  fromBytes := .ok
  toBytes _ := .error "read only"
  maxBatch := 1
  maxBatch_pos := Nat.one_pos
  observe := id

/-- An event that can't be serialized is lost with a failed run: not handled, not dropped as
unrecoverable, and not in the remainder. -/
theorem Registered.remainder_of_readOnly :
    ∃ t, Registered.readOnly.handleEvents [⟨7, .nonAssociative⟩] t (some (.failed "busy" [])) ∧
      Registered.readOnly.decode [⟨7, .nonAssociative⟩] = ([7] : List ℕ) ∧
        ∀ c ∈ t, ¬(c.handled ∨ c.dropped) := by
  refine ⟨_, Chunks.failed_of_call (h := Registered.readOnly)
    (show ([7] : List ℕ) ≠ [] from List.cons_ne_nil _ _) (Nat.le_refl 1), rfl, fun c hc => ?_⟩
  rw [List.mem_singleton.mp hc]
  rintro (hc | ⟨source, hc⟩)
  · cases hc
  · cases hc

end Wakuwaku.Iggy.Consumer
