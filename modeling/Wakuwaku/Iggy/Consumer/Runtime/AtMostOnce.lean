import Wakuwaku.Iggy.Consumer.Runtime.Untaken

/-! # At most once

With `DeliveryMode::NoDoubleConsume` a task stores its offsets before it executes what it has polled. So
what a handler took is never polled again, and it is not written to the retry partition. A retry attempt
takes a run out of the schedule only as a whole: if the run fails after one of its calls returned `Ok`,
the next attempt hands over the same records (`handed_over_twice`). Without such a failure no record is
handed over again (`at_most_once`). -/

namespace Wakuwaku.Iggy.Consumer.AtMostOnce

open Wakuwaku.Iggy.Events Wakuwaku.Iggy.Partition World

variable {I : IggyHeaders} {P O : Type}

/-! ### The loop -/

section Loop

/-- A send that failed appended nothing. -/
def FailedSend (server : Server I P) (event : TaskEvent I P O) (server' : Server I P) : Prop :=
  ∀ messages error, event = .send messages (some (.error error)) → server' = server

/-- No run of a retry attempt fails after one of its calls returned `Ok`. -/
def Whole (past : List (Server I P × TaskEvent I P O)) (event : TaskEvent I P O) : Prop :=
  ∀ run call, event = .retry run call → call.retryable →
    ∀ server call', (server, .retry run call') ∈ past → ¬ call'.handled

/-- The server of a task whose retry attempts fail before any of their calls returned `Ok`. -/
abbrev server : World (Moment I (Traced P) (Traced O)) (TaskEvent I (Traced P) (Traced O)) :=
  history Own fun s e s' => FailedSend s.1 e s' ∧ Whole s.2 e

/-- An assertion about the stored main offset, the retry partition and the calls. -/
def about (p : ℕ → TopicPartition I (Traced P) → List (Call (Traced O)) → Prop) :
    Assertion (server (I := I) (P := P) (O := O)) where
  holds s := (∀ m ∈ s.1.main.messages, Own m) ∧ p (firstOf s.1.main) s.1.retry (callsOf s.2)
  stable := by
    rintro s s' ⟨hown, hs⟩ ⟨⟨batch, hbatch, hserver⟩, hpast⟩
    rw [hserver, hpast]
    exact ⟨fun m hm => (List.mem_append.mp hm).elim (hown m) (hbatch m), hs⟩

variable {task : PartitionTask I P O} {marking : task.handlers.Marking}

variable (task marking) in
/-- What holds at each point. -/
def holdsAt : Point I (Traced P) → ℕ → TopicPartition I (Traced P) → List (Call (Traced O)) → Prop
  | .opened main => fun first retry calls => Safe first retry calls ∧ first = main.nextOrZero
  | .reading main schedule | .drained main schedule => fun first retry calls =>
    Knows schedule first retry calls ∧ first = main.nextOrZero
  | .fetched main schedule batch => fun first retry calls => Fetched schedule batch first retry calls ∧
    Storing (firstOf retry) schedule.cursor batch ∧ first = main.nextOrZero
  | .noted main schedule batch => fun first retry calls => Fetched schedule batch first retry calls ∧
    Read (firstOf retry) batch ∧ first = main.nextOrZero
  | .attempted main schedule state _ => fun first retry calls =>
    Knows { schedule with state } first retry calls ∧ first = main.nextOrZero
  | .polled main schedule batch => fun first retry calls =>
    Polled main schedule batch first retry calls ∧ Storing first main batch
  | .claimed main schedule batch => fun first retry calls =>
    Polled main schedule batch first retry calls ∧ Read first batch
  | .executed _ schedule batch reports => fun first retry calls => Knows schedule first retry calls ∧
    Read first batch ∧ Ready ((task.traced marking).writeMain schedule.state batch reports).1 first retry calls
  | .writing _ schedule batch entries => fun first retry calls => Knows schedule first retry calls ∧
    Read first batch ∧ Ready entries first retry calls
  | .written _ schedule batch => fun first retry calls => Knows schedule first retry calls ∧ Read first batch

theorem safe_of_holdsAt : ∀ (point : Point I (Traced P)) (s : Moment I (Traced P) (Traced O)),
    about (holdsAt task marking point) s → about Safe s
  | .opened _, _, h => ⟨h.1, h.2.1⟩
  | .reading .., _, h | .drained .., _, h | .attempted .., _, h => ⟨h.1, h.2.1.tracks.safe⟩
  | .fetched .., _, h | .noted .., _, h => ⟨h.1, h.2.1.tracks.safe⟩
  | .polled .., _, h | .claimed .., _, h => ⟨h.1, h.2.1.knows.tracks.safe⟩
  | .executed .., _, h | .writing .., _, h | .written .., _, h => ⟨h.1, h.2.1.tracks.safe⟩

/-- What holds after an event that is no call. -/
theorem about_snoc {p : ℕ → TopicPartition I (Traced P) → List (Call (Traced O)) → Prop}
    {server' : Server I (Traced P)} {s : Moment I (Traced P) (Traced O)}
    {event : TaskEvent I (Traced P) (Traced O)} (hcall : event.call = none)
    (hown : ∀ m ∈ server'.main.messages, Own m) (hp : p (firstOf server'.main) server'.retry (callsOf s.2)) :
    about p (server', s.2 ++ [(s.1, event)]) :=
  ⟨hown, (callsOf_snoc hcall).symm ▸ hp⟩

/-- A request that changes nothing here if it fails. -/
theorem triple_keep {α : Type} {event : Option (Except I.IggyError α) → TaskEvent I (Traced P) (Traced O)}
    (hcall : ∀ r, (event r).call = none) {point : Point I (Traced P)} {next : α → Point I (Traced P)}
    (hok : ∀ (s : Moment I (Traced P) (Traced O)) a s', about (holdsAt task marking point) s →
      Server.Step s.1 (event (some (.ok a))) s' → (∀ m ∈ s'.main.messages, Own m) ∧
        holdsAt task marking (next a) (firstOf s'.main) s'.retry (callsOf s.2))
    (hkeep : ∀ (s : Moment I (Traced P) (Traced O)) r s', about (holdsAt task marking point) s →
      Server.Step s.1 (event r) s' → (∀ m ∈ s'.main.messages, Own m) ∧
        holdsAt task marking point (firstOf s'.main) s'.retry (callsOf s.2)) :
    Triple (about Safe) (about (holdsAt task marking point)) (Async.untilOk (Async.call event)) fun a =>
      about (holdsAt task marking (next a)) := by
  refine triple_request (safe_of_holdsAt _) (fun _ => safe_of_holdsAt _) (fun s a s' hs hstep _ => ?_)
    (fun s e s' hs hstep _ => ?_) fun s s' hs hstep _ => ?_
  · obtain ⟨hown, hs'⟩ := hok s a s' hs hstep
    exact about_snoc (hcall _) hown hs'
  · obtain ⟨hown, hs'⟩ := hkeep s _ s' hs hstep
    exact about_snoc (hcall _) hown hs'
  · obtain ⟨hown, hs'⟩ := hkeep s _ s' hs hstep
    exact safe_of_holdsAt point _ (about_snoc (hcall none) hown hs')

variable {main : Cursor} {schedule : RetryTask (Traced P)} {batch : List (PolledMessage I (Traced P))}
  {last : PolledMessage I (Traced P)}

theorem triple_poll_retry (count : ℕ) : Triple (about Safe)
    (about (holdsAt task marking (.reading main schedule))) (poll count .retry schedule.cursor)
      fun batch => about (holdsAt task marking (.fetched main schedule batch)) := by
  refine triple_keep (fun _ => rfl) (fun s a s' hs hstep => ?_) fun s r s' hs hstep => ?_
  · cases hstep with
    | poll h => exact ⟨hs.1, hs.2.1.fetched (h a rfl).1, Or.inl hs.2.1.stored, hs.2.2⟩
  · cases hstep
    exact hs

theorem triple_poll_main (count : ℕ) : Triple (about Safe)
    (about (holdsAt task marking (.drained main schedule))) (poll count .main main)
      fun batch => about (holdsAt task marking (.polled main schedule batch)) := by
  refine triple_keep (fun _ => rfl) (fun s a s' hs hstep => ?_) fun s r s' hs hstep => ?_
  · cases hstep with
    | poll h => exact ⟨hs.1, hs.2.1.polled hs.2.2 hs.1 (h a rfl).1, Or.inl hs.2.2⟩
  · cases hstep
    exact hs

/-- The offset of a batch of the retry partition is stored. -/
theorem triple_store_retry (hlast : batch.getLast? = some last) : Triple (about Safe)
    (about (holdsAt task marking (.fetched main schedule batch))) (store .retry last.offset)
      fun _ => about (holdsAt task marking (.noted main schedule batch)) := by
  have hread : ∀ {offset : ℕ}, offset = last.offset → Read (offset + 1) batch := by
    rintro _ rfl last' hlast'
    rw [Option.some.inj (hlast.symm.trans hlast')]
  have hle : ∀ {first retry calls}, Fetched (O := O) schedule batch first retry calls →
      Storing (firstOf retry) schedule.cursor batch → firstOf retry ≤ last.offset + 1 := by
    intro first retry calls h hstoring
    rcases hstoring with heq | ⟨last', hlast', heq⟩
    · have hmem := TopicPartition.mem_rest.mp (h.read.subset (List.mem_of_getLast? hlast))
      exact heq.le.trans (hmem.2.trans (Nat.le_succ _))
    · rw [heq, Option.some.inj (hlast'.symm.trans hlast)]
  have hstored : ∀ {first retry calls}, Fetched (O := O) schedule batch first retry calls →
      Storing (firstOf retry) schedule.cursor batch →
        Fetched schedule batch first { retry with stored := some last.offset } calls := by
    intro first retry calls h hstoring
    exact ⟨⟨h.tracks.safe.store (hle h hstoring), h.tracks.valid, h.tracks.pending⟩, h.read, h.left⟩
  refine triple_keep (fun _ => rfl) (fun s a s' hs hstep => ?_) fun s r s' hs hstep => ?_
  · cases hstep with
    | stored => exact ⟨hs.1, hstored hs.2.1 hs.2.2.1, hread rfl, hs.2.2.2⟩
    | notStored h => exact absurd rfl h
  · cases hstep with
    | stored => exact ⟨hs.1, hstored hs.2.1 hs.2.2.1, Or.inr ⟨last, hlast, rfl⟩, hs.2.2.2⟩
    | notStored h => exact hs

/-- The offset of a batch of the main partition is stored. -/
theorem triple_store_main (hlast : batch.getLast? = some last) : Triple (about Safe)
    (about (holdsAt task marking (.polled main schedule batch))) (store .main last.offset)
      fun _ => about (holdsAt task marking (.claimed main schedule batch)) := by
  have hle : ∀ {first retry calls}, Polled (O := O) main schedule batch first retry calls →
      Storing first main batch → first ≤ last.offset + 1 := by
    intro first retry calls h hstoring
    rcases hstoring with heq | ⟨last', hlast', heq⟩
    · exact heq.le.trans ((h.after last (List.mem_of_getLast? hlast)).trans (Nat.le_succ _))
    · rw [heq, Option.some.inj (hlast'.symm.trans hlast)]
  refine triple_keep (fun _ => rfl) (fun s a s' hs hstep => ?_) fun s r s' hs hstep => ?_
  · cases hstep with
    | stored =>
      refine ⟨hs.1, hs.2.1.mono (hle hs.2.1 hs.2.2), fun last' hlast' => ?_⟩
      rw [Option.some.inj (hlast.symm.trans hlast')]
      rfl
    | notStored h => exact absurd rfl h
  · cases hstep with
    | stored => exact ⟨hs.1, hs.2.1.mono (hle hs.2.1 hs.2.2), Or.inr ⟨last, hlast, rfl⟩⟩
    | notStored h => exact hs

/-- Two events, one after the other. -/
theorem exists_split {α β : Type} {f : α → β} {l : List α} {b b' : β} (h : [b, b'].Sublist (l.map f)) :
    ∃ pre a' post, l = pre ++ a' :: post ∧ f a' = b' ∧ ∃ a ∈ pre, f a = b := by
  obtain ⟨left, right, hl, hb, hb'⟩ := List.cons_sublist_iff.mp h
  obtain ⟨left, right, rfl, rfl, rfl⟩ := List.map_eq_append_iff.mp hl
  obtain ⟨a, ha, rfl⟩ := List.mem_map.mp hb
  obtain ⟨a', ha', rfl⟩ := List.mem_map.mp (List.singleton_sublist.mp hb')
  obtain ⟨mid, post, rfl⟩ := List.append_of_mem ha'
  exact ⟨left ++ mid, a', post, (List.append_assoc _ _ _).symm, rfl, a, List.mem_append_left _ ha, rfl⟩

/-- The attempts on the due keys. -/
theorem triple_attempt {due : List UInt64} {started : ℕ} (finished : ℕ)
    (hdue : due.Perm (schedule.state.dueKeys started)) : Triple (about Safe)
      (about (holdsAt task marking (.drained main schedule)))
        ((runDueRuns (task.handlers.traced marking) schedule.state due finished).label
          fun e => TaskEvent.retry e.1 e.2)
          fun r => about (holdsAt task marking (.attempted main schedule r.1 r.2)) := by
  refine triple_calls (Async.all_label fun _ => rfl) ?_
  rintro server past past' _ o hs ⟨u, hu, rfl⟩ hpast hallowed
  have hcalls : callsOf (past ++ past') = callsOf past ++ u.map Prod.snd := by
    rw [callsOf_append, callsOf_eq past', hpast, List.filterMap_map]
    exact congrArg _ (List.filterMap_eq_map (f := Prod.snd) ▸ rfl)
  have hwhole : ∀ e e', [e, e'].Sublist u → e.2.handled → e'.2.retryable → e.1 ≠ e'.1 := by
    intro e e' hsub hh hr heq
    have hmap := hsub.map fun e => (TaskEvent.retry e.1 e.2 : TaskEvent I (Traced P) (Traced O))
    rw [← hpast] at hmap
    obtain ⟨pre, ⟨found, _⟩, post, hsplit, rfl, ⟨found', _⟩, hmem, rfl⟩ := exists_split hmap
    have hw := (hallowed pre _ post hsplit).2 e'.1 e'.2 rfl hr found' e.2
    exact hw (List.mem_append_right _ (heq ▸ hmem)) hh
  obtain ⟨hsafe, hnext⟩ := hs.2.1.attempt ((hdue.nodup_iff).mpr (nodup_dueKeys _ _)) hu hwhole
  refine ⟨⟨hs.1, hcalls.symm ▸ hsafe⟩, fun r hr => ⟨hs.1, ?_⟩⟩
  exact ⟨hcalls.symm ▸ hnext r hr, hs.2.2⟩

/-- The keys that are not quarantined are executed. -/
theorem triple_executeMain : Triple (about Safe) (about (holdsAt task marking (.claimed main schedule batch)))
    ((task.traced marking).executeMain schedule.state batch) fun reports =>
      about (holdsAt task marking (.executed main schedule batch reports)) := by
  refine triple_calls (Async.all_joinAll fun m hm => ?_) ?_
  · obtain ⟨key, -, rfl⟩ := List.mem_map.mp hm
    exact Async.all_label fun _ => rfl
  · rintro server past past' t o hs ht hpast -
    have hcalls : callsOf (past ++ past') = callsOf past ++ t.filterMap TaskEvent.call := by
      rw [callsOf_append, callsOf_eq past', hpast]
    obtain ⟨hsafe, hnext⟩ := hs.2.1.execute hs.2.2 ht
    refine ⟨⟨hs.1, hcalls.symm ▸ hsafe⟩, fun reports hr => ⟨hs.1, ?_⟩⟩
    obtain ⟨hknows, hready⟩ := hnext reports hr
    exact ⟨hcalls.symm ▸ hknows, hs.2.2, hcalls.symm ▸ hready⟩

/-- Entries are written to the retry partition. -/
theorem triple_sendRetry (entries : List (RetryEntry (Traced P))) : Triple (about Safe)
    (about (holdsAt task marking (.writing main schedule batch entries)))
      ((task.traced marking).sendRetry entries) fun _ =>
        about (holdsAt task marking (.written main schedule batch)) := by
  refine Triple.chooseBind (safe_of_holdsAt _) fun nowMs _ => ?_
  dsimp only
  split_ifs
  · exact Triple.pure fun s hs => ⟨safe_of_holdsAt _ s hs, hs.1, hs.2.1, hs.2.2.1⟩
  · refine triple_request (safe_of_holdsAt _) (fun _ => safe_of_holdsAt _) ?_ ?_ ?_
    · intro s a s' hs hstep _
      cases hstep with
      | sent => exact about_snoc rfl hs.1 ⟨hs.2.1.send hs.2.2.2 (sublist_messages entries), hs.2.2.1⟩
      | notSent h => exact absurd rfl h
    · intro s e s' hs _ hallowed
      rw [hallowed.1 _ e rfl]
      exact about_snoc rfl hs.1 hs.2
    · intro s s' hs hstep _
      cases hstep with
      | sent =>
        exact about_snoc rfl hs.1 (hs.2.1.send hs.2.2.2 (sublist_messages entries)).tracks.safe
      | notSent h => exact about_snoc rfl hs.1 hs.2.1.tracks.safe

/-- An offset is read. -/
theorem triple_storedCursor (topic : Topic)
    {p : ℕ → TopicPartition I (Traced P) → List (Call (Traced O)) → Prop}
    {q : Cursor → ℕ → TopicPartition I (Traced P) → List (Call (Traced O)) → Prop}
    (hp : ∀ s, about (I := I) (P := P) (O := O) p s → about Safe s) (hq : ∀ a s, about (q a) s → about Safe s)
    (h : ∀ s : Moment I (Traced P) (Traced O), about p s →
      about (q ⟨(s.1.get topic).stored.map (· + 1)⟩) s) :
    Triple (about Safe) (about p) (storedCursor topic) fun cursor => about (q cursor) := by
  refine Triple.bind (q := fun stored => about (q ⟨stored.map (· + 1)⟩)) ?_ fun stored =>
    Triple.pure fun s hs => ⟨hq _ s hs, hs⟩
  refine triple_request hp (fun _ => hq _) (fun s a s' hs hstep _ => ?_) (fun s e s' hs hstep _ => ?_)
    fun s s' hs hstep _ => ?_
  · cases hstep with
    | storedOffset ha =>
      obtain ⟨hown, hs⟩ := h s hs
      exact about_snoc rfl hown (ha a rfl ▸ hs)
  · cases hstep
    exact about_snoc rfl hs.1 hs.2
  · cases hstep
    exact hp _ (about_snoc rfl hs.1 hs.2)

/-- What a task that stores its offsets first keeps. -/
def outline (hmode : task.config.mode = .noDoubleConsume) : Outline (task.traced marking) server where
  safe := about Safe
  holds point := about (holdsAt task marking point)
  safe_of := safe_of_holdsAt
  openMain := triple_storedCursor (q := fun main => holdsAt task marking (.opened main)) .main
    (fun _ h => h) (fun _ => safe_of_holdsAt _) fun s hs => ⟨hs.1, hs.2, rfl⟩
  openRetry main := triple_storedCursor
    (q := fun cursor => holdsAt task marking (.reading main ⟨.new task.config.retryDelays, cursor⟩)) .retry
    (safe_of_holdsAt (.opened main)) (fun _ => safe_of_holdsAt _) fun s hs =>
      ⟨hs.1, ⟨⟨hs.2.1, RetryState.valid_new.mono (Nat.zero_le _), fun p hp => absurd hp List.not_mem_nil⟩, rfl⟩,
        hs.2.2⟩
  pollRetry _ _ := triple_poll_retry _
  ended main schedule s hs := by
    refine ⟨hs.1, ⟨hs.2.1.tracks, ?_⟩, hs.2.2.2⟩
    rcases hs.2.2.1 with heq | ⟨last, hlast, -⟩
    · exact heq
    · cases hlast
  noteRetry main schedule batch last hlast := by
    rw [(task.traced marking).storeIn_of_eq hmode]
    exact triple_store_retry hlast
  enqueue _ _ _ now nowMs _ hne hs := ⟨hs.1, hs.2.1.knows hne hs.2.2.1 now nowMs, hs.2.2.2⟩
  attempt _ _ _ _ finished hdue := triple_attempt finished hdue
  logRan _ _ _ _ := by
    refine triple_log (safe_of_holdsAt _) (safe_of_holdsAt _) fun s s' hs hstep => ?_
    cases hstep
    exact about_snoc rfl hs.1 hs.2
  commit _ _ _ hlose _ := by
    rw [show (task.traced marking).config.mode = .noDoubleConsume from hmode] at hlose
    cases hlose
  pollMain _ _ := triple_poll_main _
  idle main schedule s hs := by
    refine ⟨hs.1, hs.2.1.knows, ?_⟩
    rcases hs.2.2 with heq | ⟨last, hlast, -⟩
    · exact heq
    · cases hlast
  claim main schedule batch last hlast := by
    rw [(task.traced marking).storeIn_of_eq hmode]
    exact triple_store_main hlast
  execute _ _ _ := triple_executeMain
  logDropped _ _ _ _ := by
    refine triple_log (safe_of_holdsAt _) (safe_of_holdsAt _) fun s s' hs hstep => ?_
    cases hstep
    exact about_snoc rfl hs.1 hs.2
  send _ _ _ entries := triple_sendRetry entries
  storeMain main schedule batch last hlast := by
    rw [(task.traced marking).storeIn_of_ne (show task.config.mode ≠ _ from hmode ▸ nofun)]
    exact Triple.pure fun s hs => ⟨safe_of_holdsAt (.written main schedule batch) s hs, hs.1, hs.2.1,
      hs.2.2 last hlast⟩

end Loop

/-- A server where the messages of the main partition stand for themselves, and those of the retry
partition for different ones that are stored as read. -/
structure Starts (start : Server I (Traced P)) : Prop where
  own : ∀ m ∈ start.main.messages, Own m
  nodup : (start.retry.messages.flatMap (·.payload.2)).Nodup
  written : ∀ m ∈ start.retry.messages, ∀ a ∈ m.payload.2, a < firstOf start.main

/-- **No record is handed over again that was in a call that returned `Ok`.** In every run of a task that
stores its offsets first, whatever producers, handlers and requests do, however often the task crashes and
starts again, if no run of a retry attempt fails after one of its calls returned `Ok`. -/
theorem at_most_once (task : PartitionTask I P O) (marking : task.handlers.Marking)
    (hmode : task.config.mode = .noDoubleConsume) (start : Server I (Traced P)) (hstart : Starts start)
    (s : Moment I (Traced P) (Traced O)) (h : Lives server (task.traced marking).run.run start.opening s) :
    (callsOf s.2).Pairwise Call.Once := by
  have hopening : about (O := O) Safe start.opening :=
    ⟨hstart.own, .nil, hstart.nodup, hstart.written, fun _ hc => absurd hc List.not_mem_nil,
      fun _ _ _ _ _ _ hc => absurd hc List.not_mem_nil⟩
  exact ((outline hmode).safe_of_lives hopening h).2.once

/-! ### A run that fails after a call -/

/-- A record of key 7 that stands for the event at an offset. -/
def recordAt (offset : ℕ) : ParsedRecord (Traced ℕ) :=
  ⟨offset, ⟨⟨1⟩, 7, ⟨.relaxed, .nonAssociative⟩⟩, (offset, [offset])⟩

def messageAt (retry : Option RetryProperties) (offset : ℕ) : PolledMessage rawHeaders (Traced ℕ) :=
  ⟨offset, ((recordAt offset).headers.toMap rawHeaders retry).toOption.getD fun _ => none, (offset, [offset])⟩

theorem sorted_messageAt (retry : Option RetryProperties) :
    [messageAt retry 0, messageAt retry 1].Pairwise fun m m' => m.offset < m'.offset :=
  List.pairwise_pair.mpr Nat.zero_lt_one

theorem below_messageAt (retry : Option RetryProperties) :
    ∀ m ∈ [messageAt retry 0, messageAt retry 1], m.offset < 2 := by
  intro m hm
  rcases List.mem_pair.mp hm with rfl | rfl
  · exact Nat.zero_lt_two
  · exact Nat.one_lt_two

/-- Two events. -/
def partitionAt (retry : Option RetryProperties) (stored : Option ℕ) :
    TopicPartition rawHeaders (Traced ℕ) where
  messages := [messageAt retry 0, messageAt retry 1]
  next := 2
  stored
  sorted := sorted_messageAt retry
  below := below_messageAt retry

/-- Two events failed, and were written to the retry partition. -/
def refused : Server rawHeaders (Traced ℕ) := ⟨partitionAt none (some 1), partitionAt (some ⟨3⟩) none⟩

def refusedTask : PartitionTask rawHeaders ℕ ℕ where
  handlers := .new (Registered.plain ⟨1⟩ (.nonAssociative : Marker ℕ))
  config := ⟨.noDoubleConsume, [5, 5], List.cons_ne_nil _ _, 100, Nat.succ_ne_zero _, 10⟩
  build _ headers := .ok headers

def refusedMarking : refusedTask.handlers.Marking := (⟨.nonAssociative, id, rfl, trivial⟩ : Marked _)

theorem starts_refused : Starts refused where
  own m hm := by
    rcases List.mem_pair.mp hm with rfl | rfl <;> rfl
  nodup := by decide
  written m hm a ha := by
    rcases List.mem_pair.mp hm with rfl | rfl <;> simp_all [messageAt, firstOf, refused, partitionAt]

section Chunk

variable {h : Registered P O} (hmax : h.maxBatch = 1) {events : List h.Target} {start : ℕ} {event : h.Target}
  (hevent : events[start]? = some event)
include hmax hevent

/-- A chunk of one event. -/
theorem handleFrom_one : h.handleFrom events start = (do
    let error ← h.handleChunk [event]
    return match error with
      | none => .inl (start + 1)
      | some error => .inr (.failed error (h.encode (events.drop start)))) := by
  obtain ⟨hlt, rfl⟩ := List.getElem?_eq_some_iff.mp hevent
  have hstop : min (start + h.maxBatch) events.length = start + 1 := by
    rw [hmax]
    exact min_eq_left hlt
  have hchunk : (events.drop start).take (start + 1 - start) = [events[start]] := by
    rw [Nat.add_sub_cancel_left, List.drop_eq_getElem_cons hlt]
    rfl
  unfold Registered.handleFrom
  rw [if_pos hlt, hstop]
  exact hchunk ▸ rfl

/-- The handler takes the event. -/
theorem handleFrom_ok : h.handleFrom events start [⟨h.tag, [h.observe event], some (.ok ())⟩]
    (some (.inl (start + 1))) := by
  rw [handleFrom_one hmax hevent]
  exact Async.bind_iff.mpr ⟨none, [_], [], Chunks.handleChunk_ok _, Async.pure_iff.mpr ⟨rfl, rfl⟩, rfl⟩

/-- The handler is down. -/
theorem handleFrom_down : h.handleFrom events start
    [⟨h.tag, [h.observe event], some (.error ⟨.retryable, "down"⟩)⟩]
      (some (.inr (.failed "down" (h.encode (events.drop start))))) := by
  rw [handleFrom_one hmax hevent]
  exact Async.bind_iff.mpr
    ⟨some "down", [_], [], Chunks.handleChunk_failed _ _, Async.pure_iff.mpr ⟨rfl, rfl⟩, rfl⟩

/-- The call is cut off. -/
theorem handleFrom_cut : h.handleFrom events start [⟨h.tag, [h.observe event], none⟩] none := by
  rw [handleFrom_one hmax hevent]
  exact Or.inl ⟨.stop (Or.inl ⟨Or.inl ⟨rfl, Or.inr rfl⟩, rfl⟩), rfl⟩

end Chunk

/-- The handler of the events. -/
def refusedHandler : Registered (Traced ℕ) (Traced ℕ) :=
  (Registered.plain ⟨1⟩ (.nonAssociative : Marker ℕ)).traced .nonAssociative id

/-- The call for the first event. -/
def firstCall (result : Option (Except HandleError Unit)) : Call (Traced ℕ) := ⟨⟨1⟩, [(0, [0])], result⟩

/-- The call for the second event. -/
def secondCall (result : Option (Except HandleError Unit)) : Call (Traced ℕ) := ⟨⟨1⟩, [(1, [1])], result⟩

def refusedRecords : List (ParsedRecord (Traced ℕ)) := [recordAt 0, recordAt 1]

/-- The events of the run. -/
def refusedEvents : List refusedHandler.Target := [((0 : ℕ), [0]), ((1 : ℕ), [1])]

theorem runOne_refused {t : List (Call (Traced ℕ))} {o : Option (RunResult (Traced ℕ))}
    (h : Async.loop (refusedHandler.handleFrom refusedEvents) 0 t o) :
    runOne (refusedTask.handlers.traced refusedMarking) (Plan.new (planRecords refusedRecords)) refusedRecords
      ⟨⟨1⟩, ⟨0, 2⟩⟩ t o := by
  have hrecords : (Plan.new (planRecords refusedRecords)).records ⟨⟨1⟩, ⟨0, 2⟩⟩ = [0, 1] := by decide
  have hdecode : refusedHandler.decode (runRecords (Plan.new (planRecords refusedRecords)) refusedRecords
      ⟨⟨1⟩, ⟨0, 2⟩⟩) = refusedEvents := by
    unfold runRecords
    rw [hrecords]
    rfl
  rw [runOne, HandlerList.handleRun_eq]
  show refusedHandler.handleEvents _ _ _
  rw [Registered.handleEvents, hdecode]
  exact h

theorem ok_refused : refusedHandler.handleFrom refusedEvents 0 [firstCall (some (.ok ()))] (some (.inl 1)) :=
  handleFrom_ok (h := refusedHandler) rfl (show refusedEvents[0]? = some ((0 : ℕ), [0]) from rfl)

theorem down_refused : refusedHandler.handleFrom refusedEvents 1
    [secondCall (some (.error ⟨.retryable, "down"⟩))] (some (.inr (.failed "down" [(1, [1])]))) :=
  handleFrom_down (h := refusedHandler) rfl (show refusedEvents[1]? = some ((1 : ℕ), [1]) from rfl)

/-- The two records were read. -/
def refusedRetry : RetryTask (Traced ℕ) :=
  RetryTask.drainPolled ⟨.new [5, 5], ⟨none⟩⟩ refused.retry.messages 0 4

/-- The run fails, and keeps the second event. -/
def failedReport : KeyReport (Traced ℕ) := ⟨[], some ⟨0, "down", [⟨.body 0, [0, 1], [(1, [1])]⟩]⟩⟩

def failedRound : RetryState (Traced ℕ) × List Outcome :=
  finishReports 0 [((7, refusedRecords), failedReport)] refusedRetry.state

/-- The offset of the two records is stored. -/
def stored : Server rawHeaders (Traced ℕ) := refused.put .retry 1

section Refused

variable {allowed : Moment rawHeaders (Traced ℕ) (Traced ℕ) → TaskEvent rawHeaders (Traced ℕ) (Traced ℕ) →
    Server rawHeaders (Traced ℕ) → Prop}
  (hallowed : ∀ s e s', TaskEvent.call e = none → (∀ messages r, e ≠ .send messages r) → allowed s e s')
  {past : List (Server rawHeaders (Traced ℕ) × TaskEvent rawHeaders (Traced ℕ) (Traced ℕ))}
include hallowed

theorem reaches_storedCursor (topic : Topic) (cursor : Cursor)
    (hcursor : cursor = ⟨(refused.get topic).stored.map (· + 1)⟩) :
    Reaches (history Own allowed) (storedCursor topic) (refused, past) cursor
      (refused, past ++ [(refused, .storedOffset topic (some (.ok (refused.get topic).stored)))]) := by
  subst hcursor
  refine Reaches.bind (reaches_request _ (.storedOffset ?_) (hallowed _ _ _ rfl nofun)) Reaches.pure
  rintro _ ⟨⟩
  rfl

/-- The partition is at its end. -/
theorem reaches_ended (retry : RetryTask (Traced ℕ)) (hcursor : retry.cursor = ⟨some 2⟩) :
    Reaches (history Own allowed) ((refusedTask.traced refusedMarking).drainRetry retry).run (stored, past)
      (.ok retry) (stored, past ++ [(stored, .poll .retry ⟨some 2⟩ 100 (some (.ok [])))]) := by
  refine Reaches.tryLoop ?_
  unfold PartitionTask.drainRound
  rw [hcursor]
  refine Reaches.tryBind (Reaches.unlessDropped
    (reaches_request [] (.poll ?_) (hallowed _ _ _ rfl nofun))) Reaches.pure
  rintro batch ⟨⟩
  exact ⟨List.nil_prefix, Nat.zero_le _⟩

theorem reaches_drainRetry : Reaches (history Own allowed)
    ((refusedTask.traced refusedMarking).drainRetry ⟨.new [5, 5], ⟨none⟩⟩).run (refused, past)
      (.ok refusedRetry) (stored, past ++
        [(refused, .poll .retry ⟨none⟩ 100 (some (.ok refused.retry.messages)))] ++
        [(refused, .store .retry 1 (some (.ok ())))] ++
        [(stored, .poll .retry ⟨some 2⟩ 100 (some (.ok [])))]) := by
  refine Reaches.tryAgain ?_ (reaches_ended hallowed refusedRetry rfl)
  refine Reaches.tryBind (Reaches.unlessDropped
    (reaches_request refused.retry.messages (.poll ?_) (hallowed _ _ _ rfl nofun))) ?_
  · rintro batch ⟨⟩
    exact ⟨⟨[], rfl⟩, by decide⟩
  · refine Reaches.tryBind (Reaches.lift (Reaches.choose (a := 0) trivial)) ?_
    refine Reaches.tryBind (Reaches.lift (Reaches.choose (a := 4) trivial)) ?_
    refine Reaches.tryBind (Reaches.lift
      (reaches_request () .stored (hallowed _ _ _ rfl nofun))) Reaches.pure

end Refused

/-- The first event is taken, then the handler is down. -/
def failedCalls : List (List ℕ × Call (Traced ℕ)) :=
  [([0, 1], firstCall (some (.ok ()))), ([0, 1], secondCall (some (.error ⟨.retryable, "down"⟩)))]

theorem attempt_failed : attemptRuns (refusedTask.traced refusedMarking).handlers refusedRecords failedCalls
    (some failedReport) := by
  refine executeKeyWith_failed ⟨none, ⟨0, 1⟩, none⟩ ⟨⟨1⟩, ⟨0, 2⟩⟩ (by decide) (by decide) (by decide)
    ⟨[_, _], runOne_refused (.again ok_refused (.done down_refused)), ?_⟩
  rfl

/-- The first event is handed over again. -/
theorem attempt_cut : attemptRuns (refusedTask.traced refusedMarking).handlers refusedRecords
    [([0, 1], firstCall none)] none := by
  refine executeKeyWith_cut ⟨none, ⟨0, 1⟩, none⟩ ⟨⟨1⟩, ⟨0, 2⟩⟩ (by decide) (by decide) (by decide)
    ⟨[_], runOne_refused (.stop ?_), rfl⟩
  exact handleFrom_cut (h := refusedHandler) rfl (show refusedEvents[0]? = some ((0 : ℕ), [0]) from rfl)

/-- The server of a task, where a send that failed appended nothing. -/
abbrev sends : World (Moment I (Traced P) (Traced O)) (TaskEvent I (Traced P) (Traced O)) :=
  history Own fun s e s' => FailedSend s.1 e s'

section Refused

variable {past : List (Server rawHeaders (Traced ℕ) × TaskEvent rawHeaders (Traced ℕ) (Traced ℕ))}

theorem reaches_failed : Reaches sends ((refusedTask.traced refusedMarking).runDueKeys refusedRetry.state)
    (stored, past) failedRound.1 (stored, past ++ [(stored, .retry [0, 1] (firstCall (some (.ok ()))))] ++
      [(stored, .retry [0, 1] (secondCall (some (.error ⟨.retryable, "down"⟩))))] ++
      [(stored, .ran failedRound.2)]) := by
  have hdue : [7].Perm (refusedRetry.state.dueKeys 0) := .refl _
  refine reaches_runDueKeys 0 0 hdue (r := failedRound) ⟨_, ⟨failedCalls, ?_, rfl⟩, ?_⟩ ?_
  · refine Async.bind_iff.mpr ⟨[failedReport], failedCalls, [], ?_, Async.pure_iff.mpr ⟨rfl, rfl⟩, rfl⟩
    exact Async.joinAll_cons_iff.mpr ⟨_, [], _, [], attempt_failed, Async.joinAll_nil_iff.mpr ⟨rfl, rfl⟩,
      .nil_right _, rfl⟩
  · exact runs_retry (runs_retry .nil [0, 1] (firstCall (some (.ok ()))) nofun) [0, 1] _ nofun
  · nofun

theorem cuts_again : Cuts sends ((refusedTask.traced refusedMarking).runDueKeys failedRound.1)
    (stored, past) (stored, past ++ [(stored, .retry [0, 1] (firstCall none))]) := by
  have hdue : [7].Perm (failedRound.1.dueKeys 5) := .refl _
  refine cuts_runDueKeys 5 5 hdue ⟨_, ⟨[([0, 1], firstCall none)], ?_, rfl⟩,
    (Runs.nil).step ⟨⟨.retry, rfl⟩, nofun⟩⟩
  refine Or.inl ⟨?_, rfl⟩
  exact ⟨_, [], none, some [], attempt_cut, Async.joinAll_nil_iff.mpr ⟨rfl, rfl⟩, .nil_right _, rfl⟩

theorem failedSend_of_ne {s : Server I P} {e : TaskEvent I P O} {s' : Server I P}
    (h : ∀ messages r, e ≠ .send messages r) : FailedSend s e s' :=
  fun messages _ he => absurd he (h messages _)

/-- The offsets are read. -/
def openedPast : List (Server rawHeaders (Traced ℕ) × TaskEvent rawHeaders (Traced ℕ) (Traced ℕ)) :=
  [(refused, .storedOffset .main (some (.ok (some 1)))), (refused, .storedOffset .retry (some (.ok none)))]

/-- A round with the attempt that fails. -/
def failedPast : List (Server rawHeaders (Traced ℕ) × TaskEvent rawHeaders (Traced ℕ) (Traced ℕ)) :=
  openedPast ++ [(refused, .poll .retry ⟨none⟩ 100 (some (.ok refused.retry.messages))),
    (refused, .store .retry 1 (some (.ok ()))), (stored, .poll .retry ⟨some 2⟩ 100 (some (.ok []))),
    (stored, .retry [0, 1] (firstCall (some (.ok ())))),
    (stored, .retry [0, 1] (secondCall (some (.error ⟨.retryable, "down"⟩)))), (stored, .ran failedRound.2),
    (stored, .poll .main ⟨some 2⟩ 100 (some (.ok [])))]

/-- The task after the round. -/
def failedTask : TaskState (Traced ℕ) := ⟨⟨some 2⟩, { refusedRetry with state := failedRound.1 }, none⟩

theorem reaches_failedTask : Reaches sends
    ((refusedTask.traced refusedMarking).round ⟨⟨some 2⟩, ⟨.new [5, 5], ⟨none⟩⟩, none⟩).run
      (refused, openedPast) (.ok (.inl failedTask)) (stored, failedPast) := by
  refine Reaches.tryBind (reaches_drainRetry fun _ _ _ _ => failedSend_of_ne) ?_
  refine Reaches.tryBind (Reaches.lift reaches_failed) ?_
  refine Reaches.tryBind (Reaches.lift Reaches.pure) ?_
  refine Reaches.tryBind (Reaches.unlessDropped (reaches_request [] (.poll ?_) nofun)) ?_
  · rintro batch ⟨⟩
    exact ⟨List.nil_prefix, Nat.zero_le _⟩
  · exact Reaches.tryBind (Reaches.unlessDropped (Reaches.choose (a := ()) trivial)) Reaches.pure

/-- The next attempt hands over the first event again. -/
theorem cuts_run : Cuts sends (refusedTask.traced refusedMarking).run.run refused.opening (stored, failedPast ++
    [(stored, .poll .retry ⟨some 2⟩ 100 (some (.ok [])))] ++ [(stored, .retry [0, 1] (firstCall none))]) := by
  refine Reaches.tryCut (Reaches.unlessDropped (reaches_storedCursor
    (fun _ _ _ _ => failedSend_of_ne) .main ⟨some 2⟩ rfl)) ?_
  refine Reaches.tryCut (Reaches.unlessDropped (reaches_storedCursor
    (fun _ _ _ _ => failedSend_of_ne) .retry ⟨none⟩ rfl)) ?_
  refine Reaches.cutAgain reaches_failedTask (Cuts.tryLoop ?_)
  exact Reaches.tryCut (reaches_ended (fun _ _ _ _ => failedSend_of_ne) _ rfl) (Cuts.bind (Cuts.bind cuts_again))

end Refused

/-- **A record is handed over again**: the first event was in a call that returned `Ok`, but its run failed
at the second event, so the next attempt on the key plans both. -/
theorem handed_over_twice : ∃ s, Starts refused ∧ refusedTask.config.mode = .noDoubleConsume ∧
    Lives sends (refusedTask.traced refusedMarking).run.run refused.opening s ∧
      ¬ (callsOf s.2).Pairwise Call.Once := by
  refine ⟨_, starts_refused, rfl, Lives.start.cut cuts_run, fun h => ?_⟩
  have h : [firstCall (some (.ok ())), secondCall (some (.error ⟨.retryable, "down"⟩)),
    firstCall none].Pairwise Call.Once := h
  have honce := (List.pairwise_cons.mp h).1 (firstCall none) (by simp)
  exact honce rfl 0 (List.mem_singleton_self 0) (List.mem_singleton_self 0)

/-- The first event is taken, and the call for the second is cut off. -/
theorem cuts_refused : Cuts server (refusedTask.traced refusedMarking).run.run refused.opening
    (stored, openedPast ++ [(refused, .poll .retry ⟨none⟩ 100 (some (.ok refused.retry.messages)))] ++
      [(refused, .store .retry 1 (some (.ok ())))] ++ [(stored, .poll .retry ⟨some 2⟩ 100 (some (.ok [])))] ++
      [(stored, .retry [0, 1] (firstCall (some (.ok ()))))] ++
      [(stored, .retry [0, 1] (secondCall none))]) := by
  have hallowed : ∀ (s : Moment rawHeaders (Traced ℕ) (Traced ℕ))
      (e : TaskEvent rawHeaders (Traced ℕ) (Traced ℕ)) s', e.call = none →
        (∀ messages r, e ≠ .send messages r) → FailedSend s.1 e s' ∧ Whole s.2 e := by
    refine fun s e s' hcall hsend => ⟨failedSend_of_ne hsend, ?_⟩
    rintro run call rfl
    cases hcall
  have hcut : attemptRuns (refusedTask.traced refusedMarking).handlers refusedRecords
      [([0, 1], firstCall (some (.ok ()))), ([0, 1], secondCall none)] none := by
    refine executeKeyWith_cut ⟨none, ⟨0, 1⟩, none⟩ ⟨⟨1⟩, ⟨0, 2⟩⟩ (by decide) (by decide) (by decide)
      ⟨[_, _], runOne_refused (.again ok_refused (.stop ?_)), rfl⟩
    exact handleFrom_cut (h := refusedHandler) rfl (show refusedEvents[1]? = some ((1 : ℕ), [1]) from rfl)
  have hdue : [7].Perm (refusedRetry.state.dueKeys 0) := .refl _
  refine Reaches.tryCut (Reaches.unlessDropped (reaches_storedCursor hallowed .main ⟨some 2⟩ rfl)) ?_
  refine Reaches.tryCut (Reaches.unlessDropped (reaches_storedCursor hallowed .retry ⟨none⟩ rfl))
    (Cuts.tryLoop ?_)
  refine Reaches.tryCut (reaches_drainRetry hallowed) (Cuts.bind (Cuts.bind (cuts_runDueKeys 0 0 hdue ?_)))
  refine ⟨_, ⟨[([0, 1], firstCall (some (.ok ()))), ([0, 1], secondCall none)], Or.inl ⟨?_, rfl⟩, rfl⟩,
    runs_retry (runs_retry .nil [0, 1] (firstCall (some (.ok ()))) ?_) [0, 1] (secondCall none) ?_⟩
  · exact ⟨_, [], none, some [], hcut, Async.joinAll_nil_iff.mpr ⟨rfl, rfl⟩, .nil_right _, rfl⟩
  · exact ⟨nofun, fun run call he ⟨source, hr⟩ => by cases he; cases hr⟩
  · exact ⟨nofun, fun run call he ⟨source, hr⟩ => by cases he; cases hr⟩

theorem at_most_once_refused : ∃ s, Lives server (refusedTask.traced refusedMarking).run.run refused.opening s ∧
    callsOf s.2 = [firstCall (some (.ok ())), secondCall none] ∧ (callsOf s.2).Pairwise Call.Once :=
  have hlife := Lives.start.cut cuts_refused
  ⟨_, hlife, rfl, at_most_once refusedTask refusedMarking rfl refused starts_refused _ hlife⟩

end Wakuwaku.Iggy.Consumer.AtMostOnce
