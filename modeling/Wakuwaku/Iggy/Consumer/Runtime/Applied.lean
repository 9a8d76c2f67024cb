import Wakuwaku.Iggy.Consumer.Semantics
import Wakuwaku.Iggy.Consumer.Runtime.Followed
import Wakuwaku.Iggy.Consumer.Runtime.Batches

/-! # What a task applies when nothing fails

Handlers apply events to a state, and every call of them succeeds. Then no record is ever written to the retry
partition, and between two batches the task has applied the log up to its offset, event by event in the order
of the log (`Caught`). A task that is shut down leaves off there, and the next one goes on: after any number of
sessions, in either mode, every event of the log before the stored offset was applied once, and none behind
it (`applied_in_order`). -/

namespace Wakuwaku.Iggy.Consumer.Applied

open Wakuwaku.Iggy.Events Wakuwaku.Iggy.Partition Wakuwaku.Reorder World

variable {I : IggyHeaders} {P S : Type}

/-! ### One part after another -/

theorem applyLog_append (handlers : HandlerList P (S → S)) (records records' : List (ParsedRecord P)) :
    applyLog handlers (records ++ records') = applyLog handlers records' ∘ applyLog handlers records := by
  funext s
  exact List.foldl_append

theorem applyCalls_append (t u : List (Call (S → S))) : applyCalls (t ++ u) = applyCalls u ∘ applyCalls t := by
  funext s
  exact List.foldl_append

theorem parseMain_append (batch batch' : List (PolledMessage I P)) :
    parseMain (batch ++ batch') = parseMain batch ++ parseMain batch' := List.filterMap_append

/-! ### A part of the log -/

/-- The messages with offsets from `first` up to `next`. -/
def between (partition : TopicPartition I P) (first next : ℕ) : List (PolledMessage I P) :=
  partition.messages.filter fun message => first ≤ message.offset ∧ message.offset < next

section Between

variable {partition : TopicPartition I P} {first next : ℕ}

theorem between_self (partition : TopicPartition I P) (first : ℕ) : between partition first first = [] := by
  rw [between, List.filter_eq_nil_iff]
  intro message _
  simp only [decide_eq_true_eq]
  omega

theorem between_append (h : next ≤ partition.next) (batch : List (I.IggyMessage × P)) :
    between (partition.append batch) first next = between partition first next := by
  have hnone : (numbered partition.next batch).filter
      (fun message => decide (first ≤ message.offset ∧ message.offset < next)) = [] := by
    rw [List.filter_eq_nil_iff]
    intro message hm
    have := (offset_numbered hm).1
    simp only [decide_eq_true_eq]
    omega
  rw [between, TopicPartition.append, List.filter_append, hnone, List.append_nil]
  rfl

/-- Sorted offsets split at `next`. -/
theorem filter_between {next stop : ℕ} : ∀ {l : List (PolledMessage I P)},
    l.Pairwise (fun m m' => m.offset < m'.offset) → first ≤ next → next < stop →
      l.filter (fun m => decide (first ≤ m.offset ∧ m.offset < stop)) =
        l.filter (fun m => decide (first ≤ m.offset ∧ m.offset < next)) ++
          l.filter (fun m => decide (next ≤ m.offset ∧ m.offset < stop)) := by
  intro l hl hle hstop
  induction l with
  | nil => rfl
  | cons m l ih =>
    obtain ⟨hm, hl⟩ := List.pairwise_cons.mp hl
    have hrest := ih hl
    by_cases hlow : m.offset < next
    · by_cases hfirst : first ≤ m.offset
      · rw [List.filter_cons_of_pos (by simp; omega), List.filter_cons_of_pos (by simp; omega),
          List.filter_cons_of_neg (by simp; omega), hrest, List.cons_append]
      · rw [List.filter_cons_of_neg (by simp; omega), List.filter_cons_of_neg (by simp; omega),
          List.filter_cons_of_neg (by simp; omega), hrest]
    · have hnone : l.filter (fun m => decide (first ≤ m.offset ∧ m.offset < next)) = [] := by
        rw [List.filter_eq_nil_iff]
        intro m' hm'
        have := hm m' hm'
        simp only [decide_eq_true_eq]
        omega
      rw [hnone, List.nil_append] at hrest
      by_cases hhigh : m.offset < stop
      · rw [List.filter_cons_of_pos (by simp; omega), List.filter_cons_of_neg (by simp; omega),
          List.filter_cons_of_pos (by simp; omega), hnone, hrest, List.nil_append]
      · rw [List.filter_cons_of_neg (by simp; omega), List.filter_cons_of_neg (by simp; omega),
          List.filter_cons_of_neg (by simp; omega), hnone, hrest, List.nil_append]

/-- A batch goes on where the part of the log ends. -/
theorem between_batch {batch : List (PolledMessage I P)} {last : PolledMessage I P}
    (hbatch : batch <+: partition.rest next) (hlast : batch.getLast? = some last) (hle : first ≤ next) :
    between partition first (last.offset + 1) = between partition first next ++ batch := by
  obtain ⟨more, hmore⟩ := hbatch
  have hsorted := partition.sorted
  have hnext : next ≤ last.offset := by
    have hmem : last ∈ partition.rest next := hmore ▸ List.mem_append_left _ (List.mem_of_getLast? hlast)
    exact (TopicPartition.mem_rest.mp hmem).2
  have hrest : (partition.rest next).filter (fun m => decide (m.offset < last.offset + 1)) = batch := by
    have hpairs : (batch ++ more).Pairwise fun m m' => m.offset < m'.offset := by
      rw [hmore]
      exact hsorted.filter _
    obtain ⟨-, -, hcross⟩ := List.pairwise_append.mp hpairs
    rw [← hmore, List.filter_append, List.filter_eq_self.mpr, List.filter_eq_nil_iff.mpr, List.append_nil]
    · intro m hm
      have := hcross last (List.mem_of_getLast? hlast) m hm
      simp only [decide_eq_true_eq]
      omega
    · intro m hm
      obtain ⟨init, rfl⟩ : ∃ init, batch = init ++ [last] := List.getLast?_eq_some_iff.mp hlast
      obtain ⟨-, -, hcross'⟩ := List.pairwise_append.mp (List.pairwise_append.mp hpairs).1
      rw [decide_eq_true_eq]
      rcases List.mem_append.mp hm with hm | hm
      · have := hcross' m hm last (List.mem_singleton_self _)
        omega
      · rw [List.mem_singleton.mp hm]
        omega
  rw [between, filter_between hsorted hle (Nat.lt_succ_of_le hnext), between]
  congr 1
  rw [← hrest, TopicPartition.rest, List.filter_filter]
  refine List.filter_congr fun m _ => ?_
  simp only [Bool.decide_and]
  rw [Bool.and_comm]

end Between

/-! ### A batch whose calls all succeed -/

/-- The call of an event, if there is one, succeeds. -/
def Succeeds (event : TaskEvent I P (S → S)) : Prop :=
  ∀ call, event.call = some call → call.result = some (.ok ())

theorem succeeds_of_none {event : TaskEvent I P (S → S)} (h : event.call = none) : Succeeds event := by
  intro call hcall
  rw [h] at hcall
  cases hcall

/-- The effects of the events that a call hands over. -/
def effects (event : TaskEvent I P (S → S)) : List (S → S) := (event.call.map (·.chunk)).getD []

theorem applyCalls_callsOf (past : List (Server I P × TaskEvent I P (S → S))) :
    applyCalls (callsOf past) = runAll ((past.map Prod.snd).flatMap effects) := by
  rw [Semantics.applyCalls_eq, callsOf_eq]
  congr 1
  induction past with
  | nil => rfl
  | cons entry past ih =>
    rw [List.map_cons, List.flatMap_cons, ← ih, List.filterMap_cons]
    unfold effects
    cases entry.2.call <;> rfl

theorem flatMap_effects_execute (key : UInt64) (t : List (Call (S → S))) :
    (t.map (TaskEvent.execute (I := I) (P := P) key)).flatMap effects = t.flatMap (·.chunk) := by
  rw [List.flatMap_map]
  rfl

variable {task : PartitionTask I P (S → S)}

/-- The effects of a key are those of the runs of its segments. -/
theorem effects_of_key {batch : List (PolledMessage I P)} {kp : KeyPlan UInt64}
    {u : List (TaskEvent I P (S → S))} {o : Option (KeyReport P)}
    (hu : (executeKey task.handlers (PartitionTask.mainPlan batch) kp (parseMain batch)).label
      (TaskEvent.execute kp.key) u o) {e : TaskEvent I P (S → S)} (he : e ∈ u) {f : S → S}
    (hf : f ∈ effects e) :
    ∃ segment ∈ (PartitionTask.mainPlan batch).segmentsOf kp,
      ∃ a ∈ (PartitionTask.mainPlan batch).ranked segment,
        f ∈ Semantics.runEffects task.handlers (PartitionTask.mainPlan batch) (parseMain batch) a.2 := by
  have hcalls : Async.All (fun call => ∀ f ∈ call.chunk,
      ∃ segment ∈ (PartitionTask.mainPlan batch).segmentsOf kp, ∃ a ∈ (PartitionTask.mainPlan batch).ranked segment,
        f ∈ Semantics.runEffects task.handlers (PartitionTask.mainPlan batch) (parseMain batch) a.2)
      (executeKey task.handlers (PartitionTask.mainPlan batch) kp (parseMain batch)) := by
    refine Semantics.all_executeSegments 0 [] fun i st segment hseg a ha t o hr call hc f hf => ?_
    exact ⟨segment, hseg, a, ha, Semantics.all_runOne a.2 t o hr call hc f hf⟩
  obtain ⟨t, ht, rfl⟩ := hu
  obtain ⟨call, hcall, rfl⟩ := List.mem_map.mp he
  exact hcalls t o ht call hcall f hf

/-- The effects of two keys commute. -/
theorem commute_keys {batch : List (PolledMessage I P)} (law : Lawful task.handlers (parseMain batch))
    {kp kp' : KeyPlan UInt64} (hkp : kp ∈ (PartitionTask.mainPlan batch).keys)
    (hkp' : kp' ∈ (PartitionTask.mainPlan batch).keys) (hne : kp.key ≠ kp'.key)
    {u v : List (TaskEvent I P (S → S))} {o o' : Option (KeyReport P)}
    (hu : (executeKey task.handlers (PartitionTask.mainPlan batch) kp (parseMain batch)).label
      (TaskEvent.execute kp.key) u o)
    (hv : (executeKey task.handlers (PartitionTask.mainPlan batch) kp' (parseMain batch)).label
      (TaskEvent.execute kp'.key) v o') :
    ∀ e ∈ u, ∀ f ∈ effects e, ∀ e' ∈ v, ∀ g ∈ effects e', Function.Commute f g := by
  intro e he f hf e' he' g hg
  obtain ⟨segment, hseg, a, ha, hf⟩ := effects_of_key hu he hf
  obtain ⟨segment', hseg', a', ha', hg⟩ := effects_of_key hv he' hg
  have hunif := Semantics.uniform_of_ranked hkp hseg ha
  have hunif' := Semantics.uniform_of_ranked hkp' hseg' ha'
  refine Semantics.commute_runOne law hunif hunif' (fun i hi j hj => ?_) f hf g hg
  obtain ⟨x, hx, hxk, -⟩ := hunif i hi
  obtain ⟨y, hy, hyk, -⟩ := hunif' j hj
  rw [Semantics.effectAt_eq hx, Semantics.effectAt_eq hy]
  exact law.keys x (List.mem_of_getElem? hx) y (List.mem_of_getElem? hy) (by rw [hxk, hyk]; exact hne)

/-- What commutes with the records of a batch commutes with everything that is handed over for it. -/
theorem commute_executeMain {state : RetryState P} {batch : List (PolledMessage I P)}
    (law : Lawful task.handlers (parseMain batch)) {t : List (TaskEvent I P (S → S))}
    {o : Option (List (KeyReport P))} (ht : task.executeMain state batch t o) {g : S → S}
    (hg : ∀ record ∈ parseMain batch, Function.Commute (effectOf task.handlers record) g) :
    ∀ e ∈ t, ∀ f ∈ effects e, Function.Commute f g := by
  intro e he f hf
  obtain ⟨_, hm, u, o', hu, he⟩ := Async.exists_of_mem_joinAll ht he
  obtain ⟨kp, hkp, rfl⟩ := List.mem_map.mp hm
  obtain ⟨segment, hseg, a, ha, hf⟩ := effects_of_key hu he hf
  have hunif := Semantics.uniform_of_ranked (List.mem_of_mem_filter hkp) hseg ha
  refine Semantics.commute_runEffects law hunif (fun i hi => ?_) f hf
  obtain ⟨x, hx, -⟩ := hunif i hi
  rw [Semantics.effectAt_eq hx]
  exact hg x (List.mem_of_getElem? hx)

/-- **A batch without failures is applied in log order**, and no key fails. -/
theorem executeMain_effect {state : RetryState P} {batch : List (PolledMessage I P)}
    (law : Lawful task.handlers (parseMain batch)) (hfree : ∀ key, state.isQuarantined key = false)
    {t : List (TaskEvent I P (S → S))} {reports : List (KeyReport P)}
    (ht : task.executeMain state batch t (some reports)) (hok : ∀ e ∈ t, Succeeds e) :
    (∀ report ∈ reports, report.failure = none) ∧
      runAll (t.flatMap effects) = applyLog task.handlers (parseMain batch) := by
  have hdirect : PartitionTask.directKeys state batch = (PartitionTask.mainPlan batch).keys :=
    List.filter_eq_self.mpr fun key _ => by rw [hfree]; rfl
  have horder : (PartitionTask.mainPlan batch).keys.flatMap (fun kp =>
      ((PartitionTask.mainPlan batch).segmentsOf kp).flatMap
        (Semantics.indicesOf (PartitionTask.mainPlan batch))) = (PartitionTask.mainPlan batch).order :=
    Order.flatMap_keys (Segments.ok_assignSegments (planRecords (parseMain batch)))
      (Build.built_new (planRecords (parseMain batch)))
  unfold PartitionTask.executeMain at ht
  rw [hdirect] at ht
  have hkey : ∀ kp ∈ (PartitionTask.mainPlan batch).keys, ∀ (t : List (TaskEvent I P (S → S)))
      (report : KeyReport P), (executeKey task.handlers (PartitionTask.mainPlan batch) kp (parseMain batch)).label
        (TaskEvent.execute kp.key) t (some report) → (∀ e ∈ t, Succeeds e) → report.failure = none ∧
          runAll (t.flatMap effects) = runAll ((((PartitionTask.mainPlan batch).segmentsOf kp).flatMap
            (Semantics.indicesOf (PartitionTask.mainPlan batch))).map
              (Semantics.effectAt task.handlers (parseMain batch))) := by
    rintro kp hkp t report ⟨u, hu, rfl⟩ hok
    rw [flatMap_effects_execute]
    exact Semantics.executeSegments_effect law (fun segment hseg => Semantics.independent_of_lawful law hkp hseg)
      hu fun call hc => hok _ (List.mem_map_of_mem hc) call rfl
  obtain ⟨hreports, heff⟩ := @runAll_joinAll S _ _ _ _ effects Succeeds _ (·.failure = none) _ _ _ hkey
    ((List.pairwise_map.mp (Order.keys_nodup (planRecords (parseMain batch)))).imp_of_mem
      fun {kp kp'} hkp hkp' hne u o v o' hu hv => commute_keys law hkp hkp' hne hu hv) ht hok
  refine ⟨hreports, ?_⟩
  rw [heff, runAll_flatMap, ← List.map_flatMap, horder]
  exact (Semantics.runAll_order law).trans Semantics.applyLog_eq.symm

/-- Without failures nothing is written. -/
theorem writeMain_done {state : RetryState P} {batch : List (PolledMessage I P)} {reports : List (KeyReport P)}
    (hfree : ∀ key, state.isQuarantined key = false) (hdone : ∀ report ∈ reports, report.failure = none) :
    task.writeMain state batch reports = ([], []) := by
  have hentries : ∀ (keys : List (KeyPlan UInt64)) (reports : List (KeyReport P)),
      (∀ report ∈ reports, report.failure = none) → task.mainEntries state (PartitionTask.mainPlan batch)
        (parseMain batch) keys reports ([], []) = ([], []) := by
    intro keys
    induction keys with
    | nil => exact fun reports _ => rfl
    | cons key keys ih =>
      intro reports hdone
      cases reports with
      | nil =>
        rw [PartitionTask.mainEntries, if_neg (by simp [hfree])]
        exact ih [] (by simp)
      | cons report reports =>
        rw [PartitionTask.mainEntries_done (hfree _) (hdone _ List.mem_cons_self)]
        exact ih reports fun r hr => hdone r (List.mem_cons_of_mem _ hr)
  exact hentries _ reports hdone

/-! ### Points of a task -/

/-- The offset to read next, from the stored one. -/
def nextOf (stored : Option ℕ) : ℕ := (Cursor.mk (stored.map (· + 1))).nextOrZero

variable (published : PolledMessage I P → Prop) in
/-- The server, with its past, where every call succeeds. -/
abbrev healthy : World (Moment I P (S → S)) (TaskEvent I P (S → S)) := history published fun _ e _ => Succeeds e

/-- The task has applied the log from `first` up to `next`, and wrote nothing to the retry partition. -/
structure Caught (published : PolledMessage I P → Prop) (handlers : HandlerList P (S → S)) (first next : ℕ)
    (s : Moment I P (S → S)) : Prop where
  retry : s.1.retry.messages = []
  known : ∀ message ∈ s.1.main.messages, published message
  le : first ≤ next
  below : next ≤ s.1.main.next
  applied : applyCalls (callsOf s.2) = applyLog handlers (parseMain (between s.1.main first next))
  /-- What was handed over is made of what was published. -/
  commutes : ∀ call ∈ callsOf s.2, ∀ f ∈ call.chunk, ∀ g, (∀ message, published message → ∀ record,
    mainRecord message = some record → Function.Commute (effectOf handlers record) g) → Function.Commute f g

section Points

variable {published : PolledMessage I P → Prop} {handlers : HandlerList P (S → S)} {first next : ℕ}
  {batch : List (PolledMessage I P)} {s : Moment I P (S → S)}

theorem Caught.append (h : Caught published handlers first next s) {produced : List (I.IggyMessage × P)}
    (hnew : ∀ message ∈ numbered s.1.main.next produced, published message) :
    Caught published handlers first next ({ s.1 with main := s.1.main.append produced }, s.2) where
  retry := h.retry
  known message hm := (List.mem_append.mp hm).elim (h.known message) (hnew message)
  le := h.le
  below := h.below.trans (Nat.le_add_right _ _)
  applied := by rw [between_append h.below, h.applied]
  commutes := h.commutes

/-- An event that hands nothing over and changes no message. -/
theorem Caught.snoc (h : Caught published handlers first next s) {event : TaskEvent I P (S → S)}
    (hevent : event.call = none) {server : Server I P} (hretry : server.retry.messages = s.1.retry.messages)
    (hmain : server.main.messages = s.1.main.messages) (hnext : server.main.next = s.1.main.next) :
    Caught published handlers first next (server, s.2 ++ [(s.1, event)]) where
  retry := hretry.trans h.retry
  known := hmain ▸ h.known
  le := h.le
  below := hnext ▸ h.below
  applied := by
    rw [callsOf_snoc hevent, h.applied, between, between, hmain]
  commutes := by
    rw [callsOf_snoc hevent]
    exact h.commutes

/-- Everything was applied that the task is past with the offset it stored. -/
def boundary (published : PolledMessage I P → Prop) (handlers : HandlerList P (S → S)) (first : ℕ) :
    Assertion (healthy (S := S) published) where
  holds s := Caught published handlers first (nextOf s.1.main.stored) s
  stable := by
    rintro s ⟨server, past⟩ hs ⟨⟨produced, hnew, hserver⟩, hpast⟩
    obtain rfl : past = s.2 := hpast
    obtain rfl : server = _ := hserver
    exact hs.append hnew

/-- The task goes on at `next` with `batch`, and `noted` is what is known of the stored offset. -/
def goesOn (published : PolledMessage I P → Prop) (handlers : HandlerList P (S → S)) (first next : ℕ)
    (batch : List (PolledMessage I P)) (noted : Option ℕ → Prop) : Assertion (healthy (S := S) published) where
  holds s := Caught published handlers first next s ∧ batch <+: s.1.main.rest next ∧ noted s.1.main.stored
  stable := by
    rintro s ⟨server, past⟩ ⟨hs, hbatch, hnoted⟩ ⟨⟨produced, hnew, hserver⟩, hpast⟩
    obtain rfl : past = s.2 := hpast
    obtain rfl : server = _ := hserver
    exact ⟨hs.append hnew, hbatch.trans ((TopicPartition.extends_append _ produced).rest next), hnoted⟩

variable {noted noted' : Option ℕ → Prop}

theorem boundary_of_goesOn (h : goesOn published handlers first next batch (nextOf · = next) s) :
    boundary published handlers first s := by
  obtain ⟨hs, -, hnoted⟩ := h
  change Caught published handlers first (nextOf s.1.main.stored) s
  rwa [hnoted]

theorem goesOn_of_boundary (h : boundary published handlers first s) :
    goesOn published handlers first (nextOf s.1.main.stored) [] (nextOf · = nextOf s.1.main.stored) s :=
  ⟨h, List.nil_prefix, rfl⟩

/-! ### Requests -/

/-- A request that can be stopped, and leaves the server as it is. -/
theorem triple_ask {α : Type} {event : Option (Except I.IggyError α) → TaskEvent I P (S → S)} {fact : α → Prop}
    {found : α → List (PolledMessage I P)} (hcall : ∀ r, (event r).call = none)
    (hsame : ∀ r server server', Server.Step server (event r) server' → server' = server)
    (hok : ∀ s a, goesOn published handlers first next [] (nextOf · = next) s →
      Server.Step s.1 (event (some (.ok a))) s.1 → fact a ∧ found a <+: s.1.main.rest next) :
    Triple (boundary published handlers first) (goesOn published handlers first next [] (nextOf · = next))
      (Async.untilOk (Async.call event)) fun a =>
        (goesOn published handlers first next (found a) (nextOf · = next)).given (fact a) := by
  refine triple_request (fun _ => boundary_of_goesOn) (fun _ _ hs => boundary_of_goesOn hs.2) ?_ ?_ ?_
  · intro s a s' hs hstep _
    obtain rfl := hsame _ _ _ hstep
    obtain ⟨hfact, hfound⟩ := hok s a hs hstep
    exact ⟨hfact, hs.1.snoc (hcall _) rfl rfl rfl, hfound, hs.2.2⟩
  · intro s e s' hs hstep _
    obtain rfl := hsame _ _ _ hstep
    exact ⟨hs.1.snoc (hcall _) rfl rfl rfl, hs.2⟩
  · intro s s' hs hstep _
    obtain rfl := hsame _ _ _ hstep
    have hgoes : goesOn published handlers first next [] (nextOf · = next) (s.1, s.2 ++ [(s.1, event none)]) :=
      ⟨hs.1.snoc (hcall _) rfl rfl rfl, hs.2⟩
    exact boundary_of_goesOn hgoes

theorem triple_storedCursor (topic : Topic) :
    Triple (boundary published handlers first) (goesOn published handlers first next [] (nextOf · = next))
      (storedCursor topic) fun cursor => (goesOn published handlers first next [] (nextOf · = next)).given
        (topic = .main → cursor.nextOrZero = next) := by
  refine Triple.bind (q := fun stored => (goesOn published handlers first next [] (nextOf · = next)).given
    (topic = .main → nextOf stored = next)) ?_ fun stored => ?_
  · refine triple_ask (fun _ => rfl) (fun r server server' hstep => ?_) fun s a hs hstep => ?_
    · cases hstep
      rfl
    · cases hstep with
      | storedOffset h => exact ⟨fun ht => by rw [h a rfl, ht]; exact hs.2.2, List.nil_prefix⟩
  · exact Triple.pure fun s hs => ⟨boundary_of_goesOn hs.2, hs.1, hs.2⟩

/-- Nothing was written to the retry partition. -/
theorem triple_poll_retry (count : ℕ) (cursor : Cursor) :
    Triple (boundary published handlers first) (goesOn published handlers first next [] (nextOf · = next))
      (poll count .retry cursor) fun polled =>
        (goesOn published handlers first next [] (nextOf · = next)).given (polled = []) := by
  refine triple_ask (fun _ => rfl) (fun r server server' hstep => ?_) fun s a hs hstep => ?_
  · cases hstep
    rfl
  · cases hstep with
    | poll h =>
      obtain ⟨hhead, -⟩ := h a rfl
      have hrest : (s.1.get .retry).rest cursor.nextOrZero = [] := by
        change s.1.retry.messages.filter _ = []
        rw [hs.1.retry]
        rfl
      exact ⟨List.prefix_nil.mp (hrest ▸ hhead), List.nil_prefix⟩

theorem triple_poll_main (count : ℕ) {cursor : Cursor} (hcursor : cursor.nextOrZero = next) :
    Triple (boundary published handlers first) (goesOn published handlers first next [] (nextOf · = next))
      (poll count .main cursor) fun polled => goesOn published handlers first next polled (nextOf · = next) := by
  have hpoll : Triple (boundary published handlers first)
      (goesOn published handlers first next [] (nextOf · = next)) (poll count .main cursor) fun polled =>
        (goesOn published handlers first next polled (nextOf · = next)).given True := by
    refine triple_ask (fun _ => rfl) (fun r server server' hstep => ?_) fun s polled hs hstep => ?_
    · cases hstep
      rfl
    · cases hstep with
      | poll h => exact ⟨trivial, hcursor ▸ (h polled rfl).1⟩
  exact hpoll.imp (fun _ h => h) fun _ _ h => h.2

/-- The offset of the main partition is stored. -/
theorem triple_store_main (offset : ℕ) :
    Triple anything (goesOn published handlers first next batch fun _ => True) (store .main offset)
      fun _ => goesOn published handlers first next batch (· = some offset) := by
  refine triple_request (fun _ _ => trivial) (fun _ _ _ => trivial) ?_ ?_ fun _ _ _ _ _ => trivial
  · intro s a s' hs hstep _
    cases hstep with
    | stored => exact ⟨hs.1.snoc rfl rfl rfl rfl, hs.2.1, rfl⟩
    | notStored h => exact absurd rfl h
  · intro s e s' hs hstep _
    cases hstep with
    | stored => exact ⟨hs.1.snoc rfl rfl rfl rfl, hs.2.1, trivial⟩
    | notStored => exact ⟨hs.1.snoc rfl rfl rfl rfl, hs.2⟩

theorem triple_store_retry (offset : ℕ) :
    Triple anything (goesOn published handlers first next batch noted) (store .retry offset)
      fun _ => goesOn published handlers first next batch noted := by
  have hkeep : ∀ (s : Moment I P (S → S)) r s', goesOn published handlers first next batch noted s →
      Server.Step (O := S → S) s.1 (.store .retry offset r) s' →
        goesOn published handlers first next batch noted (s', s.2 ++ [(s.1, .store .retry offset r)]) := by
    intro s r s' hs hstep
    cases hstep with
    | stored => exact ⟨hs.1.snoc rfl rfl rfl rfl, hs.2⟩
    | notStored => exact ⟨hs.1.snoc rfl rfl rfl rfl, hs.2⟩
  refine triple_request (fun _ _ => trivial) (fun _ _ _ => trivial) ?_ ?_ fun _ _ _ _ _ => trivial
  · exact fun s a s' hs hstep _ => hkeep s _ s' hs hstep
  · exact fun s e s' hs hstep _ => hkeep s _ s' hs hstep

/-! ### Rounds -/

variable {delays : List ℕ} {retry : RetryTask P} {state : TaskState P}

/-- The retry partition is at its end. -/
theorem triple_drainRetry :
    Triple anything (goesOn published task.handlers first next [] (nextOf · = next)) (task.drainRetry retry).run
      (outcome (boundary published task.handlers first) fun retry' =>
        (goesOn published task.handlers first next [] (nextOf · = next)).given (retry' = retry)) := by
  have hbody : ∀ retry', Triple anything
      ((goesOn published task.handlers first next [] (nextOf · = next)).given (retry' = retry))
      (task.drainRound retry').run (outcome (boundary published task.handlers first)
        (Sum.elim (fun retry' => (goesOn published task.handlers first next [] (nextOf · = next)).given
            (retry' = retry))
          fun retry' => (goesOn published task.handlers first next [] (nextOf · = next)).given
            (retry' = retry))) := by
    refine fun retry' => Triple.of_given fun hretry => ?_
    refine Triple.tryBind (fun _ _ => trivial) ((Triple.unlessDropped (triple_poll_retry _ _)).mono
      fun _ _ => trivial) fun polled => Triple.of_given fun hpolled => ?_
    subst hpolled
    exact Triple.tryPure fun s hs => ⟨trivial, hretry, hs⟩
  have hloop := Triple.tryLoop _ _ (fun _ _ => trivial) (fun _ _ _ => trivial) (fun _ _ _ => trivial) hbody retry
  exact hloop.imp (fun _ hs => ⟨rfl, hs⟩) fun _ _ hs => hs

/-- No key is due. -/
theorem triple_runDueKeys :
    Triple anything (goesOn published task.handlers first next [] (nextOf · = next))
      (task.runDueKeys (.new delays)) fun schedule =>
        (goesOn published task.handlers first next [] (nextOf · = next)).given (schedule = .new delays) := by
  refine Triple.chooseBind (fun _ _ => trivial) fun started _ => ?_
  refine Triple.chooseBind (fun _ _ => trivial) fun due hdue => ?_
  obtain rfl : due = [] := List.perm_nil.mp hdue
  refine Triple.chooseBind (fun _ _ => trivial) fun finished _ => ?_
  refine Triple.bind (q := fun r => (goesOn published task.handlers first next [] (nextOf · = next)).given
    (r = (.new delays, []))) ?_ fun r => Triple.of_given fun hr => ?_
  · refine Triple.of_all (fun _ => False) ?_ (fun _ _ => trivial) (fun _ _ _ _ h => h.elim) ?_
    · rintro t o ⟨u, hu, rfl⟩ e he
      obtain ⟨rfl, -⟩ := hu
      cases he
    · rintro t r ⟨u, hu, -⟩ s hs
      obtain ⟨-, hr⟩ := hu
      exact ⟨hr r rfl, hs⟩
  · subst hr
    refine Triple.bind (q := fun _ => goesOn published task.handlers first next [] (nextOf · = next)) ?_
      fun _ => Triple.pure fun s hs => ⟨trivial, rfl, hs⟩
    refine triple_log (fun _ _ => trivial) (fun _ _ => trivial) fun s s' hs hstep => ?_
    cases hstep
    exact ⟨hs.1.snoc rfl rfl rfl rfl, hs.2⟩

/-- Storing the offset of the retry partition changes neither cursor nor schedule. -/
theorem triple_commitRetry :
    Triple anything (goesOn published task.handlers first next [] (nextOf · = next)) (task.commitRetry state)
      fun state' => (goesOn published task.handlers first next [] (nextOf · = next)).given
        (state'.main = state.main ∧ state'.retry = state.retry) := by
  have hskip : Triple anything (goesOn published task.handlers first next [] (nextOf · = next)) (pure state)
      fun state' => (goesOn published task.handlers first next [] (nextOf · = next)).given
        (state'.main = state.main ∧ state'.retry = state.retry) :=
    Triple.pure fun s hs => ⟨trivial, ⟨rfl, rfl⟩, hs⟩
  unfold PartitionTask.commitRetry
  split_ifs with hmode
  · cases state.retry.committable with
    | none => exact hskip
    | some offset =>
      dsimp only
      split_ifs
      · refine Triple.bind (triple_store_retry offset) fun _ => ?_
        exact Triple.pure fun s hs => ⟨trivial, ⟨rfl, rfl⟩, hs⟩
      · exact hskip
  · exact hskip

section Batch

variable {last : PolledMessage I P}

/-- In the first mode the offset is stored before the batch. -/
theorem triple_claim :
    Triple anything (goesOn published task.handlers first next batch (nextOf · = next))
      (task.storeIn .noDoubleConsume .main last.offset) fun _ => goesOn published task.handlers first next batch
        fun stored => task.config.mode = .noDoubleConsume → stored = some last.offset := by
  unfold PartitionTask.storeIn
  split_ifs with hmode
  · exact (triple_store_main last.offset).imp (fun _ hs => ⟨hs.1, hs.2.1, trivial⟩)
      fun _ _ hs => ⟨hs.1, hs.2.1, fun _ => hs.2.2⟩
  · exact Triple.pure fun s hs => ⟨trivial, hs.1, hs.2.1, fun h => absurd h hmode⟩

variable (hlast : batch.getLast? = some last)
  (law : ∀ messages, (∀ message ∈ messages, published message) → Lawful task.handlers (parseMain messages))
include hlast law

/-- **A batch that is executed without failures** takes the task on. -/
theorem triple_executeMain :
    Triple anything (goesOn published task.handlers first next batch noted)
      (task.executeMain (.new delays) batch) fun reports =>
        (goesOn published task.handlers first (last.offset + 1) [] noted).given
          (∀ report ∈ reports, report.failure = none) := by
  refine triple_calls (Async.all_joinAll fun m hm => ?_) fun server past past' t o hs ht hmap hallowed =>
    ⟨trivial, fun reports ho => ?_⟩
  · obtain ⟨key, -, rfl⟩ := List.mem_map.mp hm
    exact Async.all_label fun _ => rfl
  · subst ho
    obtain ⟨hcaught, hbatch, hnoted⟩ := hs
    have hmem : batch ⊆ server.main.messages := fun m hm => (TopicPartition.mem_rest.mp (hbatch.subset hm)).1
    have hok : ∀ e ∈ t, Succeeds e := by
      intro e he
      rw [← hmap] at he
      obtain ⟨entry, hentry, rfl⟩ := List.mem_map.mp he
      obtain ⟨pre, post, hsplit⟩ := List.mem_iff_append.mp hentry
      exact hallowed pre entry post hsplit
    obtain ⟨hdone, heff⟩ := executeMain_effect (law batch fun m hm => hcaught.known m (hmem hm))
      (fun _ => rfl) ht hok
    have hoffset : next ≤ last.offset ∧ last.offset < server.main.next := by
      have hin := TopicPartition.mem_rest.mp (hbatch.subset (List.mem_of_getLast? hlast))
      exact ⟨hin.2, server.main.below last hin.1⟩
    refine ⟨hdone, ⟨hcaught.retry, hcaught.known, ?_, hoffset.2, ?_, ?_⟩, List.nil_prefix, hnoted⟩
    · exact hcaught.le.trans (hoffset.1.trans (Nat.le_succ _))
    · rw [callsOf_append, applyCalls_append, hcaught.applied, applyCalls_callsOf past', hmap, heff,
        between_batch hbatch hlast hcaught.le, parseMain_append, applyLog_append]
    · intro call hcall f hf g hg
      rw [callsOf_append, List.mem_append] at hcall
      rcases hcall with hcall | hcall
      · exact hcaught.commutes call hcall f hf g hg
      · rw [callsOf_eq, hmap] at hcall
        obtain ⟨e, he, hcall⟩ := List.mem_filterMap.mp hcall
        have hrecords : ∀ record ∈ parseMain batch, Function.Commute (effectOf task.handlers record) g := by
          intro record hrecord
          rw [parseMain_eq] at hrecord
          obtain ⟨m, hm, hrecord⟩ := List.mem_filterMap.mp hrecord
          exact hg m (hcaught.known m (hmem hm)) record hrecord
        refine commute_executeMain (law batch fun m hm => hcaught.known m (hmem hm)) ht hrecords e he f ?_
        rw [effects, hcall]
        exact hf

/-- Nothing is written to the retry partition. -/
theorem triple_processMain :
    Triple anything (goesOn published task.handlers first next batch noted)
      (task.processMain (.new delays) batch) fun _ =>
        goesOn published task.handlers first (last.offset + 1) [] noted := by
  rw [PartitionTask.processMain_eq]
  refine Triple.bind (triple_executeMain hlast law) fun reports => Triple.of_given fun hdone => ?_
  rw [writeMain_done (fun _ => rfl) hdone]
  refine Triple.bind (q := fun _ => goesOn published task.handlers first (last.offset + 1) [] noted) ?_ fun _ => ?_
  · refine triple_log (fun _ _ => trivial) (fun _ _ => trivial) fun s s' hs hstep => ?_
    cases hstep
    exact ⟨hs.1.snoc rfl rfl rfl rfl, hs.2⟩
  · exact Triple.chooseBind (fun _ _ => trivial) fun _ _ => Triple.pure fun s hs => ⟨trivial, hs⟩

omit hlast law in
/-- In either mode the offset is stored after the batch. -/
theorem triple_storeMain :
    Triple anything (goesOn published task.handlers first next [] fun stored =>
      task.config.mode = .noDoubleConsume → stored = some last.offset)
      (task.storeIn .noEventLose .main last.offset) fun _ =>
        goesOn published task.handlers first next [] (· = some last.offset) := by
  unfold PartitionTask.storeIn
  split_ifs with hmode
  · exact (triple_store_main last.offset).imp (fun _ hs => ⟨hs.1, hs.2.1, trivial⟩) fun _ _ hs => hs
  · refine Triple.pure fun s hs => ⟨trivial, hs.1, hs.2.1, hs.2.2 ?_⟩
    cases hm : task.config.mode with
    | noDoubleConsume => rfl
    | noEventLose => exact absurd hm hmode

end Batch

/-- The loop between two rounds. -/
def betweenRounds (published : PolledMessage I P → Prop) (task : PartitionTask I P (S → S)) (first : ℕ)
    (state : TaskState P) : Assertion (healthy (S := S) published) :=
  (goesOn published task.handlers first state.main.nextOrZero [] (nextOf · = state.main.nextOrZero)).given
    (state.retry.state = .new task.config.retryDelays)

theorem triple_round
    (law : ∀ messages, (∀ message ∈ messages, published message) → Lawful task.handlers (parseMain messages)) :
    Triple anything (betweenRounds published task first state) (task.round state).run
      (outcome (boundary published task.handlers first)
        (Sum.elim (betweenRounds published task first) fun _ => boundary published task.handlers first)) := by
  refine Triple.of_given fun hschedule => ?_
  refine Triple.tryBind (fun _ _ => trivial) triple_drainRetry fun retry => Triple.of_given fun hretry => ?_
  subst hretry
  rw [hschedule]
  refine Triple.tryBind (fun _ _ => trivial) (Triple.lift (fun _ _ _ => trivial) triple_runDueKeys)
    fun schedule => Triple.of_given fun hnew => ?_
  subst hnew
  refine Triple.tryBind (fun _ _ => trivial) (Triple.lift (fun _ _ _ => trivial) triple_commitRetry)
    fun state' => Triple.of_given fun hstate => ?_
  obtain ⟨hmain, hretry⟩ := hstate
  have hkept : state'.retry.state = .new task.config.retryDelays := by rw [hretry]
  refine Triple.tryBind (fun _ _ => trivial) ((Triple.unlessDropped (triple_poll_main _
    (congrArg Cursor.nextOrZero hmain))).mono fun _ _ => trivial) fun polled => ?_
  cases hlast : polled.getLast? with
  | none =>
    obtain rfl := List.getLast?_eq_none_iff.mp hlast
    have hsleep : Triple (boundary published task.handlers first)
        (goesOn published task.handlers first state.main.nextOrZero [] (nextOf · = state.main.nextOrZero))
        sleep fun _ =>
          goesOn published task.handlers first state.main.nextOrZero [] (nextOf · = state.main.nextOrZero) :=
      Triple.choose (fun _ => boundary_of_goesOn) fun _ _ _ hs => hs
    refine Triple.tryBind (fun _ _ => trivial) ((Triple.unlessDropped hsleep).mono fun _ _ => trivial)
      fun _ => Triple.tryPure fun s hs => ⟨trivial, hkept, ?_⟩
    rw [hmain]
    exact hs
  | some last =>
    dsimp only
    rw [hkept]
    refine Triple.tryBind (fun _ _ => trivial) (Triple.lift (fun _ _ _ => trivial) triple_claim) fun _ => ?_
    refine Triple.tryBind (fun _ _ => trivial) (Triple.lift (fun _ _ _ => trivial)
      (triple_processMain hlast law)) fun _ => ?_
    refine Triple.tryBind (fun _ _ => trivial) (Triple.lift (fun _ _ _ => trivial) triple_storeMain) fun _ => ?_
    exact Triple.tryPure fun s hs => ⟨trivial, hkept, hs.1, hs.2.1, by rw [hs.2.2]; rfl⟩

/-- **A task that starts at a boundary** stops at one. -/
theorem triple_run
    (law : ∀ messages, (∀ message ∈ messages, published message) → Lawful task.handlers (parseMain messages)) :
    Triple anything (boundary published task.handlers first) task.run.run
      (outcome (boundary published task.handlers first) fun _ => boundary published task.handlers first) := by
  have hrun : ∀ next, Triple anything (goesOn published task.handlers first next [] (nextOf · = next)) task.run.run
      (outcome (boundary published task.handlers first) fun _ => boundary published task.handlers first) := by
    intro next
    refine Triple.tryBind (fun _ _ => trivial) ((Triple.unlessDropped (triple_storedCursor .main)).mono
      fun _ _ => trivial) fun main => Triple.of_given fun hmain => ?_
    refine Triple.tryBind (fun _ _ => trivial) ((Triple.unlessDropped (triple_storedCursor .retry)).mono
      fun _ _ => trivial) fun cursor => Triple.of_given fun _ => ?_
    obtain rfl := hmain rfl
    refine (Triple.tryLoop _ (fun _ => boundary published task.handlers first) (fun _ _ => trivial)
      (fun _ _ _ => trivial) (fun _ _ _ => trivial) (fun state => triple_round law) _).imp
        (fun _ hs => ⟨rfl, hs⟩) fun _ _ hs => hs
  intro s t o s' hs ht hr
  exact hrun _ (goesOn_of_boundary hs) ht hr

end Points

/-- What holds between any two sessions. -/
theorem caught_of_sessions {task : PartitionTask I P (S → S)} {published : PolledMessage I P → Prop}
    (law : ∀ messages, (∀ message ∈ messages, published message) → Lawful task.handlers (parseMain messages))
    {start : Server I P} (hretry : start.retry.messages = [])
    (hpublished : ∀ message ∈ start.main.messages, published message)
    (hstored : nextOf start.main.stored ≤ start.main.next) {s : Moment I P (S → S)}
    (h : Sessions (healthy published) task.run.run start.opening s) :
    Caught published task.handlers (nextOf start.main.stored) (nextOf s.1.main.stored) s := by
  have hstart : boundary (S := S) published task.handlers (nextOf start.main.stored) start.opening := by
    refine ⟨hretry, hpublished, Nat.le_refl _, hstored, ?_, fun _ hc => absurd hc List.not_mem_nil⟩
    change applyCalls [] = applyLog _ (parseMain
      (between start.main (nextOf start.main.stored) (nextOf start.main.stored)))
    rw [between_self]
    rfl
  have hruns : Triple anything (boundary published task.handlers (nextOf start.main.stored)) task.run.run
      fun _ => boundary published task.handlers (nextOf start.main.stored) := by
    refine (triple_run law).imp (fun _ hs => hs) fun r s hs => ?_
    cases r with
    | error => exact hs
    | ok a => exact hs
  exact Sessions.invariant hruns hstart h

/-- **Everything before the stored offset was applied once, in the order of the log**, in either mode, between any
two sessions of a task whose handlers never fail. The retry partition stays empty. -/
theorem applied_in_order (task : PartitionTask I P (S → S)) (published : PolledMessage I P → Prop)
    (law : ∀ messages, (∀ message ∈ messages, published message) → Lawful task.handlers (parseMain messages))
    {start : Server I P} (hretry : start.retry.messages = [])
    (hpublished : ∀ message ∈ start.main.messages, published message)
    (hstored : nextOf start.main.stored ≤ start.main.next) {s : Moment I P (S → S)}
    (h : Sessions (healthy published) task.run.run start.opening s) :
    s.1.retry.messages = [] ∧ applyCalls (callsOf s.2) =
      applyLog task.handlers (parseMain (between s.1.main (nextOf start.main.stored) (nextOf s.1.main.stored))) :=
  ⟨(caught_of_sessions law hretry hpublished hstored h).retry,
    (caught_of_sessions law hretry hpublished hstored h).applied⟩

/-! ### A session that reads to the end -/

/-- Calls that succeed are added to the past. -/
theorem runs_calls {s : Moment I P (S → S)} {published : PolledMessage I P → Prop}
    {t : List (TaskEvent I P (S → S))} (ht : ∀ e ∈ t, e.call.isSome ∧ Succeeds e) :
    (healthy published).Runs s t (s.1, s.2 ++ t.map (s.1, ·)) := by
  induction t using List.reverseRecOn with
  | nil => simpa using Runs.nil
  | append_singleton t e ih =>
    have hrest := ih fun e' he' => ht e' (List.mem_append_left _ he')
    obtain ⟨hcall, hok⟩ := ht e (List.mem_append_right _ (List.mem_singleton_self e))
    have hstep : Server.Step s.1 e s.1 := by
      cases e with
      | execute => exact .execute
      | retry => exact .retry
      | _ => cases hcall
    exact hrest.step ⟨⟨hstep, by simp⟩, hok⟩

section Reads

variable {published : PolledMessage I P → Prop} {start : Server I P}
  (past : List (Server I P × TaskEvent I P (S → S)))

/-- Every batch can be executed. -/
theorem reaches_executeMain (state : RetryState P) (batch : List (PolledMessage I P)) :
    ∃ reports past', (∀ report ∈ reports, report.failure = none) ∧
      Reaches (healthy published) (task.executeMain state batch) (start, past) reports (start, past') := by
  have hkeys : ∀ m ∈ (PartitionTask.directKeys state batch).map (fun key =>
      (executeKey task.handlers (PartitionTask.mainPlan batch) key (parseMain batch)).label
        (TaskEvent.execute (I := I) (P := P) key.key)),
      m.CanReturn (fun e => e.call.isSome ∧ Succeeds e) (·.failure = none) := by
    intro m hm
    obtain ⟨key, -, rfl⟩ := List.mem_map.mp hm
    obtain ⟨t, report, ht, hok, hdone⟩ : (executeKey task.handlers (PartitionTask.mainPlan batch) key
      (parseMain batch)).CanReturn (·.result = some (.ok ())) (·.failure = none) :=
        Returns.canReturn_executeKey key
    refine ⟨_, report, ⟨t, ht, rfl⟩, fun e he => ?_, hdone⟩
    obtain ⟨call, hcall, rfl⟩ := List.mem_map.mp he
    exact ⟨rfl, fun c hc => Option.some.inj hc ▸ hok call hcall⟩
  obtain ⟨t, reports, ht, hok, -, hdone⟩ := Async.canReturn_joinAll hkeys
  exact ⟨reports, (start, past).2 ++ t.map ((start, past).1, ·), hdone, t, ht, runs_calls hok⟩

theorem reaches_processMain (delays : List ℕ) (batch : List (PolledMessage I P)) :
    ∃ past', Reaches (healthy published) (task.processMain (.new delays) batch) (start, past) ()
      (start, past') := by
  obtain ⟨reports, past', hdone, hexecute⟩ := reaches_executeMain past (.new delays) batch
  refine ⟨past' ++ [(start, .backlogFull [])], ?_⟩
  rw [PartitionTask.processMain_eq]
  refine Reaches.bind hexecute ?_
  rw [writeMain_done (fun _ => rfl) hdone]
  refine Reaches.bind (reaches_log .backlogFull (succeeds_of_none rfl)) ?_
  exact Reaches.bind (Reaches.choose (a := 0) trivial) Reaches.pure

theorem reaches_storedCursor (topic : Topic) : Reaches (healthy published) (storedCursor topic) (start, past)
    ⟨(start.get topic).stored.map (· + 1)⟩
      (start, past ++ [(start, .storedOffset topic (some (.ok (start.get topic).stored)))]) := by
  refine Reaches.bind (reaches_request _ (.storedOffset ?_) (succeeds_of_none rfl)) Reaches.pure
  rintro stored ⟨⟩
  rfl

theorem reaches_drainRetry (retry : RetryTask P) : ∃ past', Reaches (healthy published)
    (task.drainRetry retry).run (start, past) (.ok retry) (start, past') := by
  refine ⟨_, Reaches.tryLoop (Reaches.tryBind (Reaches.unlessDropped
    (reaches_request [] (.poll ?_) (succeeds_of_none rfl))) Reaches.pure)⟩
  rintro batch ⟨⟩
  exact ⟨List.nil_prefix, Nat.zero_le _⟩

theorem reaches_nothingDue (delays : List ℕ) : Reaches (healthy published) (task.runDueKeys (.new delays))
    (start, past) (.new delays) (start, past ++ [(start, .ran [])]) := by
  have hdue : [].Perm ((RetryState.new delays : RetryState P).dueKeys 0) := .refl _
  refine reaches_runDueKeys 0 0 hdue (r := (.new delays, [])) ?_ (succeeds_of_none rfl)
  exact ⟨[], ⟨[], Async.pure_iff.mpr ⟨rfl, rfl⟩, rfl⟩, .nil⟩

section Round

variable (hmode : task.config.mode = .noEventLose) {batch : List (PolledMessage I P)}
  {last : PolledMessage I P} (hlast : batch.getLast? = some last)
  (hcount : batch.length ≤ task.config.pollCount)
include hmode hlast hcount

/-- A batch of the log is read in one round. -/
theorem reaches_round {cursor : Cursor} (hbatch : batch <+: start.main.rest cursor.nextOrZero) :
    ∃ past', Reaches (healthy published)
      (task.round ⟨cursor, ⟨.new task.config.retryDelays, ⟨none⟩⟩, none⟩).run (start, past)
        (.ok (.inl ⟨⟨some (last.offset + 1)⟩, ⟨.new task.config.retryDelays, ⟨none⟩⟩, none⟩))
          (start.put .main last.offset, past') := by
  obtain ⟨drained, hdrain⟩ := reaches_drainRetry past ⟨.new task.config.retryDelays, ⟨none⟩⟩
  have hcommit : Reaches (healthy published) (task.commitRetry ⟨cursor, ⟨.new task.config.retryDelays, ⟨none⟩⟩, none⟩)
      (start, drained ++ [(start, .ran [])]) ⟨cursor, ⟨.new task.config.retryDelays, ⟨none⟩⟩, none⟩
        (start, drained ++ [(start, .ran [])]) := by
    rw [PartitionTask.commitRetry, if_pos hmode]
    exact Reaches.pure
  obtain ⟨past', hprocess⟩ : ∃ past', Reaches (healthy published)
      (task.processMain (.new task.config.retryDelays) batch)
        (start, drained ++ [(start, .ran [])] ++
          [(start, .poll .main cursor task.config.pollCount (some (.ok batch)))]) () (start, past') :=
    reaches_processMain _ _ _
  refine ⟨past' ++ [(start, .store .main last.offset (some (.ok ())))], ?_⟩
  refine Reaches.tryBind hdrain (Reaches.tryBind (Reaches.lift (reaches_nothingDue _ _)) ?_)
  refine Reaches.tryBind (Reaches.lift hcommit) ?_
  refine Reaches.tryBind (Reaches.unlessDropped
    (reaches_request batch (.poll ?_) (succeeds_of_none rfl))) ?_
  · rintro _ ⟨⟩
    exact ⟨hbatch, hcount⟩
  · rw [hlast]
    dsimp only
    rw [task.storeIn_of_ne (fun he => DeliveryMode.noConfusion (hmode.symm.trans he)), task.storeIn_of_eq hmode]
    refine Reaches.tryBind (Reaches.lift Reaches.pure) (Reaches.tryBind (Reaches.lift hprocess) ?_)
    exact Reaches.tryBind (Reaches.lift (reaches_request () .stored (succeeds_of_none rfl))) Reaches.pure

/-- The next session can read a batch of the log. -/
theorem exists_session (hbatch : batch <+: start.main.rest (nextOf start.main.stored))
    (hretry : start.retry.stored = none) {first : Moment I P (S → S)}
    (h : Sessions (healthy published) task.run.run first (start, past)) :
    ∃ past, Sessions (healthy published) task.run.run first (start.put .main last.offset, past) := by
  have hnone : Reaches (healthy (S := S) published) (storedCursor .retry)
      (start, past ++ [(start, .storedOffset .main (some (.ok start.main.stored)))]) _ _ :=
    reaches_storedCursor _ .retry
  rw [show (start.get .retry).stored = none from hretry] at hnone
  obtain ⟨past', hround⟩ : ∃ past', Reaches (healthy published)
      (task.round ⟨⟨start.main.stored.map (· + 1)⟩, ⟨.new task.config.retryDelays, ⟨none⟩⟩, none⟩).run
        (start, past ++ [(start, .storedOffset .main (some (.ok start.main.stored)))] ++
          [(start, .storedOffset .retry (some (.ok none)))])
            (.ok (.inl ⟨⟨some (last.offset + 1)⟩, ⟨.new task.config.retryDelays, ⟨none⟩⟩, none⟩))
              (start.put .main last.offset, past') := reaches_round _ hmode hlast hcount hbatch
  have hrun : Reaches (healthy published) task.run.run (start, past) (.error .stopped)
      (start.put .main last.offset, past') := by
    refine Reaches.tryBind (Reaches.unlessDropped (reaches_storedCursor past .main)) ?_
    refine Reaches.tryBind (Reaches.unlessDropped hnone) (Reaches.tryAgain hround ?_)
    exact Reaches.tryStop (Reaches.tryFail (Reaches.tryStop (Reaches.tryFail (Cuts.dropped Cuts.untilOk))))
  obtain ⟨t, ht, hr⟩ := hrun
  exact ⟨past', .session h ht hr⟩

end Round

end Reads

/-! ### One handler whose events commute -/

/-- A record that only one handler handles has the effect of the event it holds, if any. -/
theorem effectOf_new (h : Registered P (S → S)) (x : ParsedRecord P) : effectOf (.new h) x = id ∨
    x.headers.tag = h.tag ∧ ∃ a, h.decodeOne x.run = some a ∧ effectOf (.new h) x = h.observe a := by
  unfold effectOf
  rw [HandlerList.find]
  split_ifs with htag
  · dsimp only
    cases h.decodeOne x.run with
    | none => exact .inl rfl
    | some a => exact .inr ⟨htag, a, rfl, rfl⟩
  · exact .inl rfl

/-- If the events of a handler commute, so do the records that only it handles. -/
theorem lawful_new {h : Registered P (S → S)} (m : Marker h.Target) (hm : h.algebra = m.algebra)
    (hlaw : m.Law h.observe fun _ => True) (hcomm : ∀ a b, Function.Commute (h.observe a) (h.observe b))
    (records : List (ParsedRecord P)) : Lawful (.new h) records := by
  have hall : ∀ x y, Function.Commute (effectOf (.new h) x) (effectOf (.new h) y) := by
    intro x y
    rcases effectOf_new h x with hx | ⟨-, a, -, hx⟩
    · rw [hx]
      exact .id_left
    · rcases effectOf_new h y with hy | ⟨-, b, -, hy⟩
      · rw [hy]
        exact .id_right
      · rw [hx, hy]
        exact hcomm a b
  refine ⟨fun x _ y _ _ => hall x y, fun x _ y _ _ _ _ _ => hall x y, fun tag h' hf => ?_⟩
  rw [HandlerList.find] at hf
  split_ifs at hf
  obtain rfl := Option.some.inj hf
  exact ⟨m, hm, fun key => ⟨fun _ => True, hlaw, fun _ _ _ _ _ _ => trivial⟩⟩

/-! ### The latest numbers -/

/-- A handler that keeps the latest number of each key. -/
def latest : Registered (UInt64 × ℕ) ((UInt64 → ℕ) → UInt64 → ℕ) where
  Target := UInt64 × ℕ
  tag := ⟨1⟩
  topic := "numbers"
  algebra := (Marker.nonAssociative : Marker (UInt64 × ℕ)).algebra
  fromBytes := .ok
  toBytes := .ok
  maxBatch := 1
  maxBatch_pos := Nat.one_pos
  observe entry numbers := Function.update numbers entry.1 entry.2

/-- A message has the number of its own key. -/
def OwnKey (message : PolledMessage rawHeaders (UInt64 × ℕ)) : Prop :=
  ∀ record, mainRecord message = some record → record.payload.1 = record.headers.key

/-- The numbers of different keys are kept apart. -/
theorem lawful_latest (messages : List (PolledMessage rawHeaders (UInt64 × ℕ)))
    (hown : ∀ message ∈ messages, OwnKey message) : Lawful (.new latest) (parseMain messages) := by
  have hkey : ∀ x ∈ parseMain messages, x.payload.1 = x.headers.key := by
    intro x hx
    obtain ⟨message, hmem, hrecord⟩ := List.mem_filterMap.mp (parseMain_eq messages ▸ hx)
    exact hown message hmem x hrecord
  have hdecode : ∀ {x : ParsedRecord (UInt64 × ℕ)} {a}, latest.decodeOne x.run = some a → a = x.payload := by
    intro x a ha
    unfold Registered.decodeOne at ha
    split_ifs at ha
    exact (Option.some.inj ha).symm
  refine ⟨fun x hx y hy hne => ?_, fun x _ y _ _ htag _ _ => ?_, fun tag h hf => ?_⟩
  · rcases effectOf_new latest x with hid | ⟨-, a, ha, hx'⟩
    · rw [hid]
      exact .id_left
    · rcases effectOf_new latest y with hid | ⟨-, b, hb, hy'⟩
      · rw [hid]
        exact .id_right
      · rw [hx', hy', hdecode ha, hdecode hb]
        intro numbers
        exact (Function.update_comm (by rwa [hkey x hx, hkey y hy]) ..).symm
  · rcases effectOf_new latest x with hid | ⟨hx', -⟩
    · rw [hid]
      exact .id_left
    · rcases effectOf_new latest y with hid | ⟨hy', -⟩
      · rw [hid]
        exact .id_right
      · exact absurd (hx'.trans hy'.symm) htag
  · rw [HandlerList.find] at hf
    split_ifs at hf
    obtain rfl := Option.some.inj hf
    exact ⟨.nonAssociative, rfl, fun _ => ⟨fun _ => True, trivial, fun _ _ _ _ _ _ => trivial⟩⟩

/-- A message with a number of a key. -/
def numberMessage (offset : ℕ) (key : UInt64) (number : ℕ) : PolledMessage rawHeaders (UInt64 × ℕ) :=
  ⟨offset, ((EventHeaders.mk ⟨1⟩ key ⟨.relaxed, .nonAssociative⟩).toMap rawHeaders none).toOption.getD
    fun _ => none, (key, number)⟩

/-- Two numbers of key 7, and one of key 8 between them. -/
def numbers : Server rawHeaders (UInt64 × ℕ) where
  main := {
    messages := [numberMessage 0 7 5, numberMessage 1 8 9, numberMessage 2 7 3]
    next := 3
    stored := none
    sorted := by simp [numberMessage]
    below := by simp [numberMessage] }
  retry := ⟨[], 0, none, .nil, by simp⟩

theorem ownKey_numbers : ∀ message ∈ numbers.main.messages, OwnKey message := by
  simp only [numbers, List.forall_mem_cons]
  refine ⟨?_, ?_, ?_, List.forall_mem_nil _⟩
  · rintro record ⟨⟩
    rfl
  · rintro record ⟨⟩
    rfl
  · rintro record ⟨⟩
    rfl

/-- A task that polls two messages at a time. -/
def latestTask : PartitionTask rawHeaders (UInt64 × ℕ) ((UInt64 → ℕ) → UInt64 → ℕ) where
  handlers := .new latest
  config := ⟨.noEventLose, [7], List.cons_ne_nil _ _, 2, by decide, 10⟩
  build _ headers := .ok headers

/-- A session that reads two messages, and one that reads the third, leave the latest number of each key. -/
theorem applied_in_order_latest : ∃ s' s, Sessions (healthy OwnKey) latestTask.run.run numbers.opening s' ∧
    s'.1.main.stored = some 1 ∧ Sessions (healthy OwnKey) latestTask.run.run numbers.opening s ∧
      s.1.main.stored = some 2 ∧ applyCalls (callsOf s.2) (fun _ => 0) 7 = 3 ∧
        applyCalls (callsOf s.2) (fun _ => 0) 8 = 9 := by
  obtain ⟨past', hfirst⟩ : ∃ past', Sessions (healthy OwnKey) latestTask.run.run numbers.opening
      (numbers.put .main 1, past') :=
    exists_session [] rfl (show [numberMessage 0 7 5, numberMessage 1 8 9].getLast? = some _ from rfl)
      (Nat.le_refl 2) ⟨[numberMessage 2 7 3], rfl⟩ rfl .start
  obtain ⟨past, hsecond⟩ : ∃ past, Sessions (healthy OwnKey) latestTask.run.run numbers.opening
      ((numbers.put .main 1).put .main 2, past) :=
    exists_session past' rfl (show [numberMessage 2 7 3].getLast? = some _ from rfl) (by decide)
      ⟨[], rfl⟩ rfl hfirst
  have happlied := (applied_in_order latestTask OwnKey lawful_latest rfl ownKey_numbers
    (Nat.zero_le _) hsecond).2
  refine ⟨_, _, hfirst, rfl, hsecond, rfl, ?_, ?_⟩
  · rw [happlied]
    rfl
  · rw [happlied]
    rfl

end Wakuwaku.Iggy.Consumer.Applied
