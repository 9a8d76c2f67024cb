import Wakuwaku.Iggy.Consumer.Execute

/-! # Executions without a failure

Whatever is to be executed, there is an execution in which every call succeeds: every loop over chunks
comes to its end, and so do the stages and segments of a key. -/

namespace Wakuwaku.Iggy.Consumer.Returns

open Wakuwaku.Iggy.Partition

variable {P O : Type} {handlers : HandlerList P O} {plan : Plan UInt64}
  {records : List (ParsedRecord P)}

/-- Body runs that are done leave no error. -/
theorem settle_done : ∀ {l : List ((Run × RunResult P) × ℕ)} {outcome : StageOutcome P},
    outcome.error = none → (∀ e ∈ l, e.1.2 = .done) →
      (l.foldl (fun outcome entry => outcome.settle plan (.body entry.2) entry.1.1 entry.1.2)
        outcome).error = none
  | [], _, h, _ => h
  | e :: l, outcome, h, hl => by
    refine settle_done (l := l) ?_ fun e he => hl e (List.mem_cons_of_mem _ he)
    show (outcome.settle plan (.body e.2) e.1.1 e.1.2).error = none
    rw [hl e List.mem_cons_self]
    exact h

theorem canReturn_handleChunk {h : Registered P O} (chunk : List h.Target) :
    (h.handleChunk chunk).CanReturn (·.result = some (.ok ())) (· = none) := by
  have hcall : (h.handle chunk).CanReturn (·.result = some (.ok ())) (· = .ok ()) :=
    Async.canReturn_call rfl rfl
  exact Async.canReturn_done (hcall.bind fun result hr =>
    Async.canReturn_pure ⟨none, by rw [hr]; rfl, rfl⟩)

theorem canReturn_handleEvents {h : Registered P O} (run : List (RunRecord P)) :
    (h.handleEvents run).CanReturn (·.result = some (.ok ())) (· = .done) := by
  have hloop : ∀ n start, (h.decode run).length - start ≤ n →
      (Async.loop (h.handleFrom (h.decode run)) start).CanReturn (·.result = some (.ok ()))
        (· = .done) := by
    intro n
    induction n with
    | zero =>
      intro start hn
      refine Async.canReturn_done ?_
      rw [Registered.handleFrom, if_neg (by omega)]
      exact Async.canReturn_pure ⟨_, rfl, rfl⟩
    | succ n ih =>
      intro start hn
      by_cases hlt : start < (h.decode run).length
      · have hpos := h.maxBatch_pos
        refine Async.canReturn_again ?_
          (ih (min (start + h.maxBatch) (h.decode run).length) (by omega))
        rw [Registered.handleFrom, if_pos hlt]
        exact (canReturn_handleChunk _).bind fun error he => Async.canReturn_pure (by rw [he])
      · refine Async.canReturn_done ?_
        rw [Registered.handleFrom, if_neg hlt]
        exact Async.canReturn_pure ⟨_, rfl, rfl⟩
  exact hloop _ 0 (Nat.le_refl _)

theorem canReturn_runOne (run : Run) : (runOne handlers plan records run).CanReturn
    (·.result = some (.ok ())) (· = .done) := by
  unfold runOne
  rw [HandlerList.handleRun_eq]
  cases handlers.find run.tag with
  | none => exact Async.canReturn_pure rfl
  | some h => exact canReturn_handleEvents _

section Stages

variable {ε : Type} {p : ε → Prop} {run1 : Stage → Run → Async ε (RunResult P)}
  (h : ∀ stage run, (run1 stage run).CanReturn p (· = .done)) {outcome : StageOutcome P}
  (ho : outcome.error = none)
include h ho

theorem canReturn_executeSingle (stage : Stage) (run : Option Run) :
    (executeSingle run1 plan stage run outcome).CanReturn p (·.error = none) := by
  cases run with
  | none => rw [executeSingle_none]; exact Async.canReturn_pure ho
  | some run =>
    rw [executeSingle_some ho]
    exact (h stage run).bind fun result hr => Async.canReturn_pure (by rw [hr]; exact ho)

theorem canReturn_executeBody (body : List Run) :
    (executeBody run1 plan body outcome).CanReturn p (·.error = none) := by
  rw [executeBody_ok ho]
  refine (Async.canReturn_joinAll (q := (· = .done)) fun m hm => ?_).bind fun results hr =>
    Async.canReturn_pure (settle_done ho fun e he => hr.2 _ ?_)
  · obtain ⟨i, hi, rfl⟩ := List.mem_mapIdx.mp hm
    exact h _ _
  · exact (List.of_mem_zip (List.fst_mem_of_mem_zipIdx he)).2

end Stages

theorem canReturn_executeSegments {ε : Type} {p : ε → Prop}
    {run1 : ℕ → Stage → Run → Async ε (RunResult P)}
    (h : ∀ index stage run, (run1 index stage run).CanReturn p (· = .done)) :
    ∀ (segments : List Segment) (index : ℕ) (completed : List ℕ),
      (executeSegments run1 plan segments index completed).CanReturn p (·.failure = none)
  | [], _, _ => Async.canReturn_pure rfl
  | segment :: rest, index, completed => by
    refine Async.CanReturn.bind (q := (·.error = none)) ?_ fun outcome ho => ?_
    · exact (canReturn_executeSingle (h index) rfl .head _).bind fun o₁ h₁ =>
        (canReturn_executeBody (h index) h₁ _).bind fun o₂ h₂ =>
          canReturn_executeSingle (h index) h₂ .tail _
    · rw [ho]
      exact canReturn_executeSegments h rest (index + 1) outcome.completed

theorem canReturn_executeKey (key : KeyPlan UInt64) : (executeKey handlers plan key records).CanReturn
    (·.result = some (.ok ())) (·.failure = none) :=
  canReturn_executeSegments (fun _ _ run => canReturn_runOne run) _ 0 []

/-- Every batch can be executed without a failure. -/
theorem canReturn_execute (keys : List (KeyPlan UInt64)) :
    (Async.joinAll (keys.map fun key => executeKey handlers plan key records)).CanReturn
      (·.result = some (.ok ())) fun _ => True := by
  have hkeys : ∀ m ∈ keys.map (fun key => executeKey handlers plan key records),
      m.CanReturn (·.result = some (.ok ())) (·.failure = none) := by
    intro m hm
    obtain ⟨key, -, rfl⟩ := List.mem_map.mp hm
    exact canReturn_executeKey key
  obtain ⟨t, reports, ht, hok, -⟩ := Async.canReturn_joinAll hkeys
  exact ⟨t, reports, ht, hok, trivial⟩

end Wakuwaku.Iggy.Consumer.Returns
