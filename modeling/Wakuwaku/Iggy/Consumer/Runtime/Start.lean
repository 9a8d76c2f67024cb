import Wakuwaku.Iggy.Events.Publisher
import Wakuwaku.Iggy.Consumer.Dispatch
import Wakuwaku.Iggy.Consumer.Runtime.Task

/-! # Starting a consumer

`start` checks the configuration and the registered handlers, looks up the main topic, makes sure that its
retry topic has as many partitions, and makes one task for each configured partition. It asks for a topic at
most twice and creates at most one (`start_run`). -/

namespace Wakuwaku.Iggy.Consumer

open Wakuwaku.Iggy.Events

/-! ### Configuration -/

/-- `ConsumerConfig`, as it is given. -/
structure StartConfig where
  stream : String
  consumerName : String
  partitions : List ℕ
  mode : DeliveryMode
  retryDelays : List ℕ
  pollCount : ℕ
  maxPendingRetry : ℕ

/-- `DEFAULT_RETRY_DELAYS`, in nanoseconds. -/
def defaultRetryDelays : List ℕ := [2000000000, 4000000000, 8000000000, 16000000000]

/-- Configuration with defaults. -/
def StartConfig.new (stream consumerName : String) (partitions : List ℕ) : StartConfig :=
  ⟨stream, consumerName, partitions, .noEventLose, defaultRetryDelays, 1000, 100000⟩

/-- Why a consumer was not started. -/
inductive SetupError (I : IggyClient) where
  | iggy (error : I.IggyError)
  | topicNotFound (stream topic : String)
  | partitionNotFound (topic : String) (partition : ℕ)
  | partitionCountMismatch (topic retryTopic : String) (topicCount retryCount : ℕ)
  | invalidConfig (reason : String)
  /-- The registered events have different topics, or two of them the same tag. -/
  | handlers (error : StartError)

/-! ### Checks without requests -/

variable {I : IggyClient} {P O : Type} {handlers : HandlerList P O} {config : StartConfig}

/-- What is known before the first request. -/
structure Checked (I : IggyClient) (handlers : HandlerList P O) (config : StartConfig) where
  topic : String
  stream : I.Identifier
  mainTopic : I.Identifier
  retryDelays_ne : config.retryDelays ≠ []
  pollCount_ne : config.pollCount ≠ 0
  handlers_eq : checkHandlers handlers = .ok topic
  stream_eq : I.identifier config.stream = .ok stream
  mainTopic_eq : I.identifier topic = .ok mainTopic

/-- The checks that `start` makes before its first request, in order. -/
def check (I : IggyClient) (handlers : HandlerList P O) (config : StartConfig) :
    Except (SetupError I) (Checked I handlers config) :=
  if hdelays : config.retryDelays = [] then .error (.invalidConfig "retry_delays must not be empty")
  else if config.partitions = [] then .error (.invalidConfig "partitions must not be empty")
  else if hcount : config.pollCount = 0 then .error (.invalidConfig "poll_count must not be zero")
  else match hhandlers : checkHandlers handlers with
  | .error error => .error (.handlers error)
  | .ok topic => match hstream : I.identifier config.stream with
    | .error error => .error (.iggy error)
    | .ok stream => match hmain : I.identifier topic with
      | .error error => .error (.iggy error)
      | .ok mainTopic => .ok ⟨topic, stream, mainTopic, hdelays, hcount, hhandlers, hstream, hmain⟩

/-! ### Requests -/

/-- What `start` asks for, with the answers. A topic is given by the ids of its partitions. -/
inductive SetupEvent (I : IggyClient) where
  | getTopic (stream topic : I.Identifier) (answer : Option (Except I.IggyError (Option (List ℕ))))
  | createTopic (stream : I.Identifier) (name : String) (partitionsCount : ℕ)
    (answer : Option (Except I.IggyError Unit))

/-- A request that fails with the error of Iggy. -/
def tryIggy {ε α : Type} (request : Async ε (Except I.IggyError α)) : ExceptT (SetupError I) (Async ε) α :=
  ExceptT.mk do return (← request).mapError .iggy

/-- A result that is known without a request. -/
def tryNow {ε E α : Type} (result : Except E α) : ExceptT E (Async ε) α := ExceptT.mk (pure result)

/-- The name of the retry topic. -/
def retryName (topic : String) : String := "retry_" ++ topic

/-- The partitions with a running task, and the configuration that every task has. -/
structure ConsumerRuntime where
  partitions : List ℕ
  config : ConsumerConfig

/-- The running tasks, each with its partition. -/
def ConsumerRuntime.tasks (runtime : ConsumerRuntime) (handlers : HandlerList P O)
    (build : P → (String → Option I.HeaderValue) → Except I.IggyError I.IggyMessage) :
    List (ℕ × PartitionTask I.toIggyHeaders P O) :=
  runtime.partitions.map fun partition => (partition, ⟨handlers, runtime.config, build⟩)

/-- The configuration of the tasks. -/
def Checked.taskConfig (checked : Checked I handlers config) : ConsumerConfig where
  mode := config.mode
  retryDelays := config.retryDelays
  retryDelays_ne := checked.retryDelays_ne
  pollCount := config.pollCount
  pollCount_ne := checked.pollCount_ne
  maxPendingRetry := config.maxPendingRetry

/-- Look up the main topic. -/
def Checked.findMain (checked : Checked I handlers config) :
    ExceptT (SetupError I) (Async (SetupEvent I)) (List ℕ) := do
  match ← tryIggy (Async.call (.getTopic checked.stream checked.mainTopic)) with
  | some main => return main
  | none => throw (.topicNotFound config.stream checked.topic)

/-- A retry topic that is there must have `n` partitions. -/
def Checked.checkCount (checked : Checked I handlers config) (n : ℕ) (retry : List ℕ) : Except (SetupError I) Unit :=
  if retry.length ≠ n then
    .error (.partitionCountMismatch checked.topic (retryName checked.topic) n retry.length)
  else .ok ()

/-- Make sure that there is a retry topic with `n` partitions. -/
def Checked.ensureTopic (checked : Checked I handlers config) (n : ℕ) (retryTopic : I.Identifier) :
    ExceptT (SetupError I) (Async (SetupEvent I)) Unit := do
  match ← tryIggy (Async.call (.getTopic checked.stream retryTopic)) with
  | none => tryIggy (Async.call (.createTopic checked.stream (retryName checked.topic) n))
  | some retry => tryNow (checked.checkCount n retry)

def Checked.ensureRetry (checked : Checked I handlers config) (main : List ℕ) :
    ExceptT (SetupError I) (Async (SetupEvent I)) Unit := do
  let retryTopic ← tryNow ((I.identifier (retryName checked.topic)).mapError .iggy)
  checked.ensureTopic main.length retryTopic

/-- One task for each configured partition, if the main topic has all of them. -/
def Checked.spawn (checked : Checked I handlers config) (main : List ℕ) :
    Except (SetupError I) ConsumerRuntime :=
  match config.partitions.find? (· ∉ main) with
  | some partition => .error (.partitionNotFound checked.topic partition)
  | none => do
    let _ ← (I.identifier config.consumerName).mapError .iggy
    return ⟨config.partitions, checked.taskConfig⟩

/-- Validate the topics and spawn one task per configured partition. -/
def ConsumerRuntime.start (I : IggyClient) (handlers : HandlerList P O) (config : StartConfig) :
    ExceptT (SetupError I) (Async (SetupEvent I)) ConsumerRuntime := do
  let checked ← tryNow (check I handlers config)
  let main ← checked.findMain
  checked.ensureRetry main
  tryNow (checked.spawn main)

/-! ### What one start asks for -/

/-- A chain of two computations that can fail, at any moment. -/
theorem tryBind_cases {ε E α β : Type} {m : ExceptT E (Async ε) α} {f : α → ExceptT E (Async ε) β} {t : List ε}
    {o : Option (Except E β)} (h : (m >>= f).run t o) :
    (m.run t none ∧ o = none) ∨ (∃ e, m.run t (some (.error e)) ∧ ∀ r, o = some r → r = .error e) ∨
      ∃ a u v, m.run u (some (.ok a)) ∧ (f a).run v o ∧ t = u ++ v := by
  obtain ⟨hm, ho⟩ | ⟨a, u, v, hm, hf, rfl⟩ := h
  · exact .inl ⟨hm, ho⟩
  · cases a with
    | error e =>
      obtain ⟨rfl, ho⟩ := hf
      exact .inr (.inl ⟨e, by rwa [List.append_nil], ho⟩)
    | ok a => exact .inr (.inr ⟨a, u, v, hm, hf, rfl⟩)

theorem tryNow_run {ε E α : Type} {result : Except E α} {t : List ε} {o : Option (Except E α)}
    (h : (tryNow result : ExceptT E (Async ε) α).run t o) : t = [] ∧ ∀ r, o = some r → r = result := h

/-- The retry topic has another number of partitions. -/
def SetupError.isMismatch : SetupError I → Bool
  | .partitionCountMismatch .. => true
  | _ => false

/-- A request, and its result if it was answered. -/
theorem tryIggy_call {ε α : Type} {event : Option (Except I.IggyError α) → ε} {t : List ε}
    {o : Option (Except (SetupError I) α)} (h : (tryIggy (Async.call event)).run t o) :
    (t = [] ∨ ∃ a, t = [event a]) ∧ (∀ a, o = some (.ok a) → t = [event (some (.ok a))]) ∧
      ∀ e, o = some (.error e) → e.isMismatch = false := by
  obtain ⟨hcall, rfl⟩ | ⟨result, u, v, hcall, ⟨rfl, ho⟩, rfl⟩ := h
  · obtain ⟨-, rfl | rfl⟩ | ⟨a, rfl, -⟩ := hcall
    · exact ⟨.inl rfl, nofun, nofun⟩
    · exact ⟨.inr ⟨_, rfl⟩, nofun, nofun⟩
    · exact ⟨.inr ⟨_, rfl⟩, nofun, nofun⟩
  · obtain rfl := Async.call_iff.mp hcall
    refine ⟨.inr ⟨_, rfl⟩, fun a ha => ?_, fun e he => ?_⟩
    · cases result with
      | error error => cases ho _ ha
      | ok b =>
        obtain rfl := Except.ok.inj (ho _ ha)
        rfl
    · cases result with
      | error error =>
        obtain rfl := Except.error.inj (ho _ he)
        rfl
      | ok b => cases ho _ he

section One

variable {checked : Checked I handlers config} {t : List (SetupEvent I)}

theorem findMain_run {o : Option (Except (SetupError I) (List ℕ))} (h : checked.findMain.run t o) :
    (t = [] ∨ ∃ a, t = [.getTopic checked.stream checked.mainTopic a]) ∧
    (∀ main, o = some (.ok main) → t = [.getTopic checked.stream checked.mainTopic (some (.ok (some main)))]) ∧
    ∀ e, o = some (.error e) → e.isMismatch = false := by
  obtain ⟨hget, rfl⟩ | ⟨e, hget, ho⟩ | ⟨found, u, v, hget, hrest, rfl⟩ := tryBind_cases h
  · exact ⟨(tryIggy_call hget).1, nofun, nofun⟩
  · obtain ⟨ht, -, herror⟩ := tryIggy_call hget
    refine ⟨ht, fun main hmain => (nomatch ho _ hmain), fun e' he => ?_⟩
    obtain rfl := Except.error.inj (ho _ he)
    exact herror e' rfl
  · obtain ⟨-, hok, -⟩ := tryIggy_call hget
    obtain rfl := hok found rfl
    cases found with
    | none =>
      obtain ⟨rfl, ho⟩ := hrest
      refine ⟨.inr ⟨_, rfl⟩, fun main hmain => (nomatch ho _ hmain), fun e he => ?_⟩
      obtain rfl := Except.error.inj (ho _ he)
      rfl
    | some main =>
      obtain ⟨rfl, ho⟩ := hrest
      refine ⟨.inr ⟨_, rfl⟩, fun main' hmain => ?_, fun e he => (nomatch ho _ he)⟩
      obtain rfl := Except.ok.inj (ho _ hmain)
      rfl

/-- What `ensureRetry` asks for: the retry topic, and then to create it if there is none. -/
def Checked.RetryTrace (checked : Checked I handlers config) (n : ℕ) (retryTopic : I.Identifier)
    (t : List (SetupEvent I)) : Prop :=
  (∃ a, t = [.getTopic checked.stream retryTopic a]) ∨
    ∃ a, t = [.getTopic checked.stream retryTopic (some (.ok none)),
      .createTopic checked.stream (retryName checked.topic) n a]

/-- It is there, or it was created. -/
def Checked.RetryFound (checked : Checked I handlers config) (n : ℕ) (retryTopic : I.Identifier)
    (t : List (SetupEvent I)) : Prop :=
  (∃ retry : List ℕ, t = [.getTopic checked.stream retryTopic (some (.ok (some retry)))] ∧ retry.length = n) ∨
    t = [.getTopic checked.stream retryTopic (some (.ok none)),
      .createTopic checked.stream (retryName checked.topic) n (some (.ok ()))]

theorem ensureTopic_run {n : ℕ} {retryTopic : I.Identifier} {o : Option (Except (SetupError I) Unit)}
    (h : (checked.ensureTopic n retryTopic).run t o) :
    (t = [] ∨ checked.RetryTrace n retryTopic t) ∧ (∀ u, o = some (.ok u) → checked.RetryFound n retryTopic t) ∧
    ∀ e, o = some (.error e) → e.isMismatch = true → ∃ retry : List ℕ,
      t = [.getTopic checked.stream retryTopic (some (.ok (some retry)))] ∧ retry.length ≠ n := by
  obtain ⟨hget, rfl⟩ | ⟨e, hget, ho⟩ | ⟨found, u, v, hget, hrest, rfl⟩ := tryBind_cases h
  · obtain ⟨rfl | ⟨a, rfl⟩, -⟩ := tryIggy_call hget
    · exact ⟨.inl rfl, nofun, nofun⟩
    · exact ⟨.inr (.inl ⟨a, rfl⟩), nofun, nofun⟩
  · obtain ⟨ht, -, herror⟩ := tryIggy_call hget
    refine ⟨ht.imp_right .inl, fun u hu => (nomatch ho _ hu), fun e' he hmis => ?_⟩
    obtain rfl := Except.error.inj (ho _ he)
    rw [herror e' rfl] at hmis
    cases hmis
  obtain ⟨-, hok, -⟩ := tryIggy_call hget
  obtain rfl := hok found rfl
  cases found with
  | none =>
    obtain ⟨ht, hok, herror⟩ := tryIggy_call hrest
    refine ⟨.inr ?_, fun u hu => .inr (by rw [hok u hu]; rfl), fun e he hmis => ?_⟩
    · obtain rfl | ⟨a, rfl⟩ := ht
      · exact .inl ⟨_, rfl⟩
      · exact .inr ⟨a, rfl⟩
    · rw [herror e he] at hmis
      cases hmis
  | some retry =>
    obtain ⟨rfl, ho⟩ := tryNow_run hrest
    unfold Checked.checkCount at ho
    refine ⟨.inr (.inl ⟨_, rfl⟩), fun u hu => .inl ⟨retry, rfl, ?_⟩, fun e he _ => ⟨retry, rfl, fun hlen => ?_⟩⟩
    · by_contra hlen
      rw [if_pos hlen] at ho
      cases ho _ hu
    · rw [if_neg (not_not.mpr hlen)] at ho
      cases ho _ he

theorem ensureRetry_run {main : List ℕ} {o : Option (Except (SetupError I) Unit)}
    (h : (checked.ensureRetry main).run t o) :
    (t = [] ∨ ∃ retryTopic, I.identifier (retryName checked.topic) = .ok retryTopic ∧
      checked.RetryTrace main.length retryTopic t) ∧
    (∀ u, o = some (.ok u) → ∃ retryTopic, I.identifier (retryName checked.topic) = .ok retryTopic ∧
      checked.RetryFound main.length retryTopic t) ∧
    ∀ e, o = some (.error e) → e.isMismatch = true → ∃ retryTopic, ∃ retry : List ℕ,
      I.identifier (retryName checked.topic) = .ok retryTopic ∧
        t = [.getTopic checked.stream retryTopic (some (.ok (some retry)))] ∧ retry.length ≠ main.length := by
  obtain ⟨hnow, rfl⟩ | ⟨e, hnow, ho⟩ | ⟨retryTopic, u, v, hnow, hrest, rfl⟩ := tryBind_cases h
  · exact ⟨.inl (tryNow_run hnow).1, nofun, nofun⟩
  · obtain ⟨rfl, hr⟩ := tryNow_run hnow
    refine ⟨.inl rfl, fun u hu => (nomatch ho _ hu), fun e' he hmis => ?_⟩
    obtain rfl := Except.error.inj (ho _ he)
    cases hid : I.identifier (retryName checked.topic) with
    | error error =>
      rw [hid] at hr
      obtain rfl := Except.error.inj (hr _ rfl)
      cases hmis
    | ok retryTopic =>
      rw [hid] at hr
      cases hr _ rfl
  · obtain ⟨rfl, hr⟩ := tryNow_run hnow
    have hid := mapError_eq_ok_iff.mp (hr _ rfl).symm
    obtain ⟨ht, hok, hmis⟩ := ensureTopic_run hrest
    rw [List.nil_append]
    refine ⟨ht.imp_right fun ht => ⟨_, hid, ht⟩, fun u hu => ⟨_, hid, hok u hu⟩, fun e he hm => ?_⟩
    obtain ⟨retry, hretry⟩ := hmis e he hm
    exact ⟨retryTopic, retry, hid, hretry⟩

theorem isMismatch_of_check {e : SetupError I} (h : check I handlers config = .error e) : e.isMismatch = false := by
  unfold check at h
  split_ifs at h
  · exact Except.error.inj h ▸ rfl
  · exact Except.error.inj h ▸ rfl
  · exact Except.error.inj h ▸ rfl
  · repeat' split at h
    all_goals first
      | exact Except.error.inj h ▸ rfl
      | cases h

/-- A spawned task for each configured partition, which the main topic has. -/
theorem spawn_eq_ok {main : List ℕ} {runtime : ConsumerRuntime} (h : checked.spawn main = .ok runtime) :
    (∀ partition ∈ config.partitions, partition ∈ main) ∧ runtime = ⟨config.partitions, checked.taskConfig⟩ := by
  unfold Checked.spawn at h
  split at h
  · cases h
  · rename_i hnone
    obtain ⟨identifier, -, h⟩ := bind_eq_ok_iff.mp h
    refine ⟨fun partition hp => ?_, (Except.ok.inj h).symm⟩
    simpa using List.find?_eq_none.mp hnone partition hp

theorem isMismatch_of_spawn {main : List ℕ} {e : SetupError I} (h : checked.spawn main = .error e) :
    e.isMismatch = false := by
  unfold Checked.spawn at h
  split at h
  · exact Except.error.inj h ▸ rfl
  · cases hid : I.identifier config.consumerName with
    | error error =>
      rw [hid] at h
      exact Except.error.inj h ▸ rfl
    | ok identifier =>
      rw [hid] at h
      cases h

/-- What `start` asks for, so far. -/
def Checked.Trace (checked : Checked I handlers config) (t : List (SetupEvent I)) : Prop :=
  (t = [] ∨ ∃ a, t = [.getTopic checked.stream checked.mainTopic a]) ∨
    ∃ main retryTopic u, t = .getTopic checked.stream checked.mainTopic (some (.ok (some main))) :: u ∧
      I.identifier (retryName checked.topic) = .ok retryTopic ∧ checked.RetryTrace main.length retryTopic u

/-- What it has found when it returns a runtime. -/
def Checked.Started (checked : Checked I handlers config) (t : List (SetupEvent I)) (runtime : ConsumerRuntime) :
    Prop :=
  ∃ main retryTopic u, t = .getTopic checked.stream checked.mainTopic (some (.ok (some main))) :: u ∧
    I.identifier (retryName checked.topic) = .ok retryTopic ∧ checked.RetryFound main.length retryTopic u ∧
      checked.spawn main = .ok runtime

/-- What it has found when the retry topic has another number of partitions. -/
def Checked.Mismatched (checked : Checked I handlers config) (t : List (SetupEvent I)) : Prop :=
  ∃ (main retry : List ℕ) (retryTopic : I.Identifier), I.identifier (retryName checked.topic) = .ok retryTopic ∧
    t = [.getTopic checked.stream checked.mainTopic (some (.ok (some main))),
      .getTopic checked.stream retryTopic (some (.ok (some retry)))] ∧ retry.length ≠ main.length

/-- **What one start asks for and how it ends.** -/
theorem start_run {o : Option (Except (SetupError I) ConsumerRuntime)}
    (h : (ConsumerRuntime.start I handlers config).run t o) :
    (t = [] ∧ ∀ r, o = some r → ∃ e, r = .error e ∧ e.isMismatch = false) ∨
    ∃ checked : Checked I handlers config, checked.Trace t ∧
      (∀ runtime, o = some (.ok runtime) → checked.Started t runtime) ∧
        ∀ e, o = some (.error e) → e.isMismatch = true → checked.Mismatched t := by
  obtain ⟨hnow, rfl⟩ | ⟨e, hnow, ho⟩ | ⟨checked, u, v, hnow, hmain, rfl⟩ := tryBind_cases h
  · exact .inl ⟨(tryNow_run hnow).1, nofun⟩
  · obtain ⟨rfl, hr⟩ := tryNow_run hnow
    exact .inl ⟨rfl, fun r hr' => ⟨e, ho r hr', isMismatch_of_check (hr _ rfl).symm⟩⟩
  obtain ⟨rfl, -⟩ := tryNow_run hnow
  refine .inr ⟨checked, ?_⟩
  rw [List.nil_append]
  obtain ⟨hfind, rfl⟩ | ⟨e, hfind, ho⟩ | ⟨main, u, v, hfind, hretry, rfl⟩ := tryBind_cases hmain
  · exact ⟨.inl (findMain_run hfind).1, nofun, nofun⟩
  · obtain ⟨ht, -, herror⟩ := findMain_run hfind
    refine ⟨.inl ht, fun runtime hr => (nomatch ho _ hr), fun e' he hmis => ?_⟩
    obtain rfl := Except.error.inj (ho _ he)
    rw [herror e' rfl] at hmis
    cases hmis
  obtain ⟨-, hok, -⟩ := findMain_run hfind
  obtain rfl := hok main rfl
  obtain ⟨hensure, rfl⟩ | ⟨e, hensure, ho⟩ | ⟨a, u, w, hensure, hspawn, rfl⟩ := tryBind_cases hretry
  · obtain ⟨rfl | ⟨retryTopic, hid, ht⟩, -⟩ := ensureRetry_run hensure
    · exact ⟨.inl (.inr ⟨_, rfl⟩), nofun, nofun⟩
    · exact ⟨.inr ⟨main, retryTopic, v, rfl, hid, ht⟩, nofun, nofun⟩
  · obtain ⟨ht, -, hmis⟩ := ensureRetry_run hensure
    refine ⟨?_, fun runtime hr => (nomatch ho _ hr), fun e' he hm => ?_⟩
    · obtain rfl | ⟨retryTopic, hid, ht⟩ := ht
      · exact .inl (.inr ⟨_, rfl⟩)
      · exact .inr ⟨main, retryTopic, v, rfl, hid, ht⟩
    · obtain rfl := Except.error.inj (ho _ he)
      obtain ⟨retryTopic, retry, hid, rfl, hlen⟩ := hmis e' rfl hm
      exact ⟨main, retry, retryTopic, hid, rfl, hlen⟩
  · obtain ⟨rfl, hr⟩ := tryNow_run hspawn
    obtain ⟨-, hok, -⟩ := ensureRetry_run hensure
    obtain ⟨retryTopic, hid, hfound⟩ := hok a rfl
    rw [List.append_nil]
    refine ⟨.inr ⟨main, retryTopic, u, rfl, hid, ?_⟩, fun runtime hruntime => ?_, fun e he hm => ?_⟩
    · obtain ⟨retry, rfl, -⟩ | rfl := hfound
      · exact .inl ⟨_, rfl⟩
      · exact .inr ⟨_, rfl⟩
    · exact ⟨main, retryTopic, u, rfl, hid, hfound, (hr _ hruntime).symm⟩
    · rw [isMismatch_of_spawn (hr _ he).symm] at hm
      cases hm

/-- A start creates the retry topic only once it has seen the main topic, and as wide. -/
theorem Checked.Trace.create {v rest : List (SetupEvent I)} {stream : I.Identifier} {name : String} {n : ℕ}
    {a : Option (Except I.IggyError Unit)} (h : checked.Trace (v ++ .createTopic stream name n a :: rest)) :
    stream = checked.stream ∧ name = retryName checked.topic ∧ ∃ main : List ℕ, n = main.length ∧
      .getTopic checked.stream checked.mainTopic (some (.ok (some main))) ∈ v := by
  obtain (h | ⟨b, h⟩) | ⟨main, retryTopic, u, h, -, ⟨b, rfl⟩ | ⟨b, rfl⟩⟩ := h
  · simp at h
  · match v with
    | [] => cases h
    | _ :: v => simp at h
  · match v with
    | [] => cases h
    | [_] => cases h
    | _ :: _ :: v => simp at h
  · match v with
    | [] => cases h
    | [_] => cases h
    | [first, second] =>
      obtain ⟨rfl, h⟩ := List.cons.inj h
      obtain ⟨-, h⟩ := List.cons.inj h
      cases h
      exact ⟨rfl, rfl, main, rfl, by simp⟩
    | _ :: _ :: _ :: v => simp at h

end One

end Wakuwaku.Iggy.Consumer
