import Wakuwaku.Grouped
import Wakuwaku.Iggy.Consumer.Runtime.Start

/-! # Consumers that start side by side

`start` looks for the retry topic and then creates it, and anything can happen in between. Still, if no other
client creates retry topics, all of them are as wide as their main topics in every interleaving of any number
of starts, and what a start has found holds from then on (`starts_agree`). -/

namespace Wakuwaku.Iggy.Consumer

open Wakuwaku.Iggy.Events

variable {I : IggyClient} {P O ι : Type} [DecidableEq ι]

/-! ### The topics of a server -/

/-- The partitions of each topic, by the names of its stream and its own. -/
abbrev Topics : Type := String → String → Option (List ℕ)

/-- A topic is created that was not there. -/
structure Topics.Created (topics topics' : Topics) (stream name : String) (partitions : List ℕ) : Prop where
  absent : topics stream name = none
  created : topics' stream name = some partitions
  others : ∀ stream' name', ¬ (stream' = stream ∧ name' = name) → topics' stream' name' = topics stream' name'

/-- Each retry topic has a main topic with as many partitions. -/
def Topics.Paired (topics : Topics) : Prop := ∀ stream topic retry, topics stream (retryName topic) = some retry →
  ∃ main, topics stream topic = some main ∧ main.length = retry.length

section Topics

variable {topics topics' : Topics} {stream name topic : String} {partitions main : List ℕ}

/-- What is there stays as it is. -/
theorem Topics.Created.keeps (h : topics.Created topics' stream name partitions) {stream' name' : String}
    {ps : List ℕ} (hps : topics stream' name' = some ps) : topics' stream' name' = some ps := by
  rw [h.others, hps]
  rintro ⟨rfl, rfl⟩
  rw [h.absent] at hps
  cases hps

theorem retryName_inj {a b : String} (h : retryName a = retryName b) : a = b := (String.append_right_inj _).mp h

/-- **A retry topic that is as wide as its main topic** keeps the topics paired. -/
theorem Topics.Paired.create_retry (hpaired : topics.Paired)
    (h : topics.Created topics' stream (retryName topic) partitions) (hmain : topics stream topic = some main)
    (hlen : main.length = partitions.length) : topics'.Paired := by
  intro stream' topic' retry hretry
  by_cases hnew : stream' = stream ∧ retryName topic' = retryName topic
  · obtain ⟨rfl, hname⟩ := hnew
    obtain rfl := retryName_inj hname
    obtain rfl := Option.some.inj (h.created.symm.trans hretry)
    exact ⟨main, h.keeps hmain, hlen⟩
  · rw [h.others _ _ hnew] at hretry
    obtain ⟨main', hmain', hlen'⟩ := hpaired stream' topic' retry hretry
    exact ⟨main', h.keeps hmain', hlen'⟩

theorem Topics.Paired.create_other (hpaired : topics.Paired) (h : topics.Created topics' stream name partitions)
    (hname : ∀ topic, name ≠ retryName topic) : topics'.Paired := by
  intro stream' topic' retry hretry
  rw [h.others _ _ fun hnew => hname topic' hnew.2.symm] at hretry
  obtain ⟨main', hmain', hlen'⟩ := hpaired stream' topic' retry hretry
  exact ⟨main', h.keeps hmain', hlen'⟩

end Topics

/-- Answers of a server, where `named` is the name of the stream or topic that an identifier is for. Any
request may fail, also one that created a topic. -/
inductive Topics.Answers (named : I.Identifier → String) (topics : Topics) : SetupEvent I → Topics → Prop
  | told (stream topic) :
    Answers named topics (.getTopic stream topic (some (.ok (topics (named stream) (named topic))))) topics
  | untold (stream topic) {answer} (h : ∀ found, answer ≠ some (.ok found)) :
    Answers named topics (.getTopic stream topic answer) topics
  | created {stream name n answer topics'} (h : topics.Created topics' (named stream) name (List.range n)) :
    Answers named topics (.createTopic stream name n answer) topics'
  | refused (stream name n) {answer} (h : answer ≠ some (.ok ())) :
    Answers named topics (.createTopic stream name n answer) topics

/-- Consumers that start side by side, while others create topics that are no retry topics. Topics are not
deleted, and keep their partitions. -/
def setups (named : I.Identifier → String) (ι : Type) : World Topics (ι × SetupEvent I) where
  step topics e topics' := topics.Answers named e.2 topics'
  move topics topics' := ∃ stream name partitions, topics.Created topics' stream name partitions ∧
    ∀ topic, name ≠ retryName topic

/-! ### At every moment -/

section Runs

variable {named : I.Identifier → String} {handlers : ι → HandlerList P O} {config : ι → StartConfig}
  {t : List (ι × SetupEvent I)} {first topics : Topics}

/-- What is known of the topics from the answers so far. -/
structure Known (named : I.Identifier → String) (first : Topics) (t : List (ι × SetupEvent I))
    (topics : Topics) : Prop where
  paired : topics.Paired
  kept : ∀ stream name partitions, first stream name = some partitions → topics stream name = some partitions
  told : ∀ i stream topic partitions, (i, .getTopic stream topic (some (.ok (some partitions)))) ∈ t →
    topics (named stream) (named topic) = some partitions
  created : ∀ i stream name n, (i, .createTopic stream name n (some (.ok ()))) ∈ t →
    topics (named stream) name = some (List.range n)

omit [DecidableEq ι] in
/-- A topic that is created changes nothing that is known. -/
theorem Known.create {topics' : Topics} {stream name : String} {partitions : List ℕ}
    (h : Known named first t topics) (hc : topics.Created topics' stream name partitions)
    (hpaired : topics'.Paired) : Known named first t topics' :=
  ⟨hpaired, fun s n ps hps => hc.keeps (h.kept s n ps hps), fun i s n ps he => hc.keeps (h.told i s n ps he),
    fun i s n k he => hc.keeps (h.created i s n k he)⟩

/-- Each start has asked what its program asks for, so far. -/
def Begun (handlers : ι → HandlerList P O) (config : ι → StartConfig) (t : List (ι × SetupEvent I)) : Prop :=
  ∀ i, entriesOf i t = [] ∨ ∃ (checked : Checked I (handlers i) (config i)) (rest : List (SetupEvent I)),
    checked.Trace (entriesOf i t ++ rest)

/-- The identifiers of the topics name them. -/
def Naming (named : I.Identifier → String) (handlers : ι → HandlerList P O) : Prop :=
  ∀ i topic, checkHandlers (handlers i) = .ok topic → ∀ name ∈ [topic, retryName topic], ∀ id,
    I.identifier name = .ok id → named id = name

section Step

variable {i : ι} {e : SetupEvent I}

theorem Begun.of_append (h : Begun handlers config (t ++ [(i, e)])) : Begun handlers config t := by
  intro j
  have hj := h j
  rw [entriesOf_append] at hj
  obtain hj | ⟨checked, rest, hj⟩ := hj
  · exact .inl (List.append_eq_nil_iff.mp hj).1
  · exact .inr ⟨checked, _, by rwa [List.append_assoc] at hj⟩

/-- A topic that is created now is the retry topic of a main topic that is known. -/
theorem Known.create_retry (h : Known named first t topics) (hnames : Naming named handlers)
    (hbegun : Begun handlers config (t ++ [(i, e)])) {stream : I.Identifier} {name : String} {n : ℕ}
    {a : Option (Except I.IggyError Unit)} (he : e = .createTopic stream name n a) :
    ∃ topic main, name = retryName topic ∧ topics (named stream) topic = some main ∧ n = main.length := by
  subst he
  have hi := hbegun i
  rw [entriesOf_append, entriesOf_cons_self] at hi
  obtain hi | ⟨checked, rest, hi⟩ := hi
  · simp at hi
  · rw [List.append_assoc] at hi
    obtain ⟨rfl, rfl, main, rfl, hmem⟩ := hi.create
    have htold := h.told i _ _ _ (mem_entriesOf.mp hmem)
    rw [hnames i _ checked.handlers_eq _ (by simp) _ checked.mainTopic_eq] at htold
    exact ⟨checked.topic, main, rfl, htold, rfl⟩

/-- **What one answer leaves known.** -/
theorem Known.step (h : Known named first t topics) (hnames : Naming named handlers)
    (hbegun : Begun handlers config (t ++ [(i, e)])) {topics' : Topics} (hs : topics.Answers named e topics') :
    Known named first (t ++ [(i, e)]) topics' := by
  cases hs with
  | told stream topic =>
    refine ⟨h.paired, h.kept, fun j s id ps he => ?_, fun j s name n he => h.created j s name n ?_⟩
    · rcases List.mem_append.mp he with he | he
      · exact h.told j s id ps he
      · simp only [List.mem_singleton, Prod.mk.injEq, SetupEvent.getTopic.injEq, Option.some.injEq,
          Except.ok.injEq] at he
        obtain ⟨-, rfl, rfl, hps⟩ := he
        exact hps.symm
    · simpa using he
  | untold stream topic hnone =>
    refine ⟨h.paired, h.kept, fun j s id ps he => h.told j s id ps ?_, fun j s name n he => h.created j s name n ?_⟩
    · rcases List.mem_append.mp he with he | he
      · exact he
      · cases List.mem_singleton.mp he
        exact absurd rfl (hnone _)
    · simpa using he
  | @created stream name n answer topics' hc =>
    obtain ⟨topic, main, rfl, hmain, rfl⟩ := h.create_retry hnames hbegun rfl
    have hknown := h.create hc (h.paired.create_retry hc hmain List.length_range.symm)
    refine ⟨hknown.paired, hknown.kept, fun j s id ps he => hknown.told j s id ps ?_, fun j s name n he => ?_⟩
    · simpa using he
    · rcases List.mem_append.mp he with he | he
      · exact hknown.created j s name n he
      · cases List.mem_singleton.mp he
        exact hc.created
  | refused stream name n hrefused =>
    refine ⟨h.paired, h.kept, fun j s id ps he => h.told j s id ps ?_, fun j s name' k he => h.created j s name' k ?_⟩
    · simpa using he
    · rcases List.mem_append.mp he with he | he
      · exact he
      · cases List.mem_singleton.mp he
        exact absurd rfl hrefused

end Step

/-- **What is known at every moment.** -/
theorem known_of_runs (hfirst : first.Paired) (hnames : Naming named handlers)
    (hrun : (setups named ι).Runs first t topics) (hbegun : Begun handlers config t) :
    Known named first t topics := by
  induction hrun with
  | nil => exact ⟨hfirst, fun _ _ _ h => h, nofun, nofun⟩
  | move _ hm ih =>
    obtain ⟨stream, name, partitions, hc, hname⟩ := hm
    exact (ih hbegun).create hc ((ih hbegun).paired.create_other hc hname)
  | step _ hs ih => exact (ih hbegun.of_append).step hnames hbegun hs

/-! ### How a start ends -/

/-- A start that has not failed before its first request has asked what its program asks for. -/
theorem begun_of_start
    (hstarts : ∀ i, ∃ o, (ConsumerRuntime.start I (handlers i) (config i)).run (entriesOf i t) o) :
    Begun handlers config t := by
  intro i
  obtain ⟨o, ho⟩ := hstarts i
  obtain ⟨hnil, -⟩ | ⟨checked, htrace, -⟩ := start_run ho
  · exact .inl hnil
  · exact .inr ⟨checked, [], by rwa [List.append_nil]⟩

/-- What a start was told of its topics is known. -/
theorem Known.told_main (h : Known named first t topics) (hnames : Naming named handlers) {i : ι} {main : List ℕ}
    {checked : Checked I (handlers i) (config i)}
    (he : .getTopic checked.stream checked.mainTopic (some (.ok (some main))) ∈ entriesOf i t) :
    topics (named checked.stream) checked.topic = some main := by
  have htold := h.told i _ _ _ (mem_entriesOf.mp he)
  rwa [hnames i _ checked.handlers_eq _ (by simp) _ checked.mainTopic_eq] at htold

theorem Known.told_retry (h : Known named first t topics) (hnames : Naming named handlers) {i : ι} {retry : List ℕ}
    {checked : Checked I (handlers i) (config i)} {retryTopic : I.Identifier}
    (hid : I.identifier (retryName checked.topic) = .ok retryTopic)
    (he : .getTopic checked.stream retryTopic (some (.ok (some retry))) ∈ entriesOf i t) :
    topics (named checked.stream) (retryName checked.topic) = some retry := by
  have htold := h.told i _ _ _ (mem_entriesOf.mp he)
  rwa [hnames i _ checked.handlers_eq _ (by simp) _ hid] at htold

/-- No start finds a retry topic that is not as wide as its main topic. -/
theorem Known.not_mismatched (h : Known named first t topics) (hnames : Naming named handlers) {i : ι}
    {checked : Checked I (handlers i) (config i)} : ¬ checked.Mismatched (entriesOf i t) := by
  rintro ⟨main, retry, retryTopic, hid, ht, hlen⟩
  have hmain : topics (named checked.stream) checked.topic = some main := h.told_main hnames (by simp [ht])
  have hretry : topics (named checked.stream) (retryName checked.topic) = some retry :=
    h.told_retry hnames hid (by simp [ht])
  obtain ⟨main', hmain', hlen'⟩ := h.paired _ _ _ hretry
  rw [Option.some.inj (hmain.symm.trans hmain')] at hlen
  exact hlen hlen'.symm

/-- What a start that returns a runtime has found is still there. -/
theorem Known.of_started (h : Known named first t topics) (hnames : Naming named handlers) {i : ι}
    {checked : Checked I (handlers i) (config i)} {runtime : ConsumerRuntime}
    (hs : checked.Started (entriesOf i t) runtime) :
    ∃ main retry, topics (named checked.stream) checked.topic = some main ∧
      topics (named checked.stream) (retryName checked.topic) = some retry ∧ retry.length = main.length ∧
        checked.spawn main = .ok runtime := by
  obtain ⟨main, retryTopic, u, ht, hid, hfound, hspawn⟩ := hs
  have hmain : topics (named checked.stream) checked.topic = some main := h.told_main hnames (by simp [ht])
  refine ⟨main, ?_⟩
  obtain ⟨retry, rfl, hlen⟩ | rfl := hfound
  · exact ⟨retry, hmain, h.told_retry hnames hid (by simp [ht]), hlen, hspawn⟩
  · exact ⟨_, hmain, h.created i _ _ _ (mem_entriesOf.mp (by simp [ht])), List.length_range, hspawn⟩

/-- **Consumers that start side by side agree on their topics.** While they start in any interleaving, every
retry topic is as wide as its main topic, and no topic changes. No start finds a mismatch, and one that
returns a runtime has tasks for its configured partitions, all of the main topic, which has its retry topic. -/
theorem starts_agree (hfirst : first.Paired) (hnames : Naming named handlers)
    (hrun : (setups named ι).Runs first t topics)
    (hstarts : ∀ i, ∃ o, (ConsumerRuntime.start I (handlers i) (config i)).run (entriesOf i t) o) :
    topics.Paired ∧
    (∀ stream name partitions, first stream name = some partitions → topics stream name = some partitions) ∧
    (∀ i e, (ConsumerRuntime.start I (handlers i) (config i)).run (entriesOf i t) (some (.error e)) →
      e.isMismatch = false) ∧
    ∀ i runtime, (ConsumerRuntime.start I (handlers i) (config i)).run (entriesOf i t) (some (.ok runtime)) →
      ∃ stream topic main retry, I.identifier (config i).stream = .ok stream ∧ checkHandlers (handlers i) = .ok topic ∧
        topics (named stream) topic = some main ∧ topics (named stream) (retryName topic) = some retry ∧
        retry.length = main.length ∧ runtime.partitions = (config i).partitions ∧
          ∀ partition ∈ runtime.partitions, partition ∈ main := by
  have hknown := known_of_runs hfirst hnames hrun (begun_of_start hstarts)
  refine ⟨hknown.paired, hknown.kept, fun i e he => ?_, fun i runtime hruntime => ?_⟩
  · obtain ⟨-, hr⟩ | ⟨checked, -, -, hmis⟩ := start_run he
    · obtain ⟨e', he', hno⟩ := hr _ rfl
      obtain rfl := Except.error.inj he'
      exact hno
    · by_contra hm
      exact hknown.not_mismatched hnames (hmis e rfl (by simpa using hm))
  · obtain ⟨-, hr⟩ | ⟨checked, -, hok, -⟩ := start_run hruntime
    · obtain ⟨e, he, -⟩ := hr _ rfl
      cases he
    · obtain ⟨main, retry, hmain, hretry, hlen, hspawn⟩ := hknown.of_started hnames (hok runtime rfl)
      obtain ⟨hall, rfl⟩ := spawn_eq_ok hspawn
      exact ⟨checked.stream, checked.topic, main, retry, checked.stream_eq, checked.handlers_eq, hmain, hretry, hlen,
        rfl, hall⟩

end Runs

/-! ### Two consumers of a shop -/

/-- A stream with one topic of two partitions. -/
def shopTopics : Topics := fun stream name => if stream = "shop" ∧ name = "events" then some [0, 1] else none

/-- With its retry topic. -/
def shopTopics' : Topics := fun stream name =>
  if stream = "shop" ∧ name = "retry_events" then some [0, 1] else shopTopics stream name

/-- Its identifiers are names. -/
def shopNames (id : Publisher.rawClient.Identifier) : String := id

def shopConfig : StartConfig := .new "shop" "readers" [0]

theorem paired_shopTopics : shopTopics.Paired := by
  intro stream topic retry h
  unfold shopTopics at h
  split_ifs at h with heq
  have hname : retryName topic = "events" := heq.2
  have hchars := congrArg String.toList hname
  rw [retryName, String.toList_append] at hchars
  cases hchars

theorem created_shopTopics : shopTopics.Created shopTopics' "shop" "retry_events" (List.range 2) where
  absent := rfl
  created := rfl
  others _ _ h := if_neg h

/-- What a start of the shop asks for that finds no retry topic. -/
def shopEvents (a : Except Unit Unit) : List (SetupEvent Publisher.rawClient) :=
  [.getTopic "shop" "events" (some (.ok (some [0, 1]))), .getTopic "shop" "retry_events" (some (.ok none)),
    .createTopic "shop" "retry_events" 2 (some a)]

/-- Both look for the retry topic before one of them creates it, and the other fails. -/
def shopRun : List (Bool × SetupEvent Publisher.rawClient) :=
  [(true, .getTopic "shop" "events" (some (.ok (some [0, 1])))),
    (false, .getTopic "shop" "events" (some (.ok (some [0, 1])))),
    (true, .getTopic "shop" "retry_events" (some (.ok none))),
    (false, .getTopic "shop" "retry_events" (some (.ok none))),
    (true, .createTopic "shop" "retry_events" 2 (some (.ok ()))),
    (false, .createTopic "shop" "retry_events" 2 (some (.error ())))]

/-- What is known before the first request. -/
def shopChecked : Checked Publisher.rawClient twoHandlers shopConfig where
  topic := "events"
  stream := "shop"
  mainTopic := "events"
  retryDelays_ne := List.cons_ne_nil _ _
  pollCount_ne := Nat.succ_ne_zero 999
  handlers_eq := rfl
  stream_eq := rfl
  mainTopic_eq := rfl

section Runs

variable {I : IggyClient} {ε E α β : Type}

theorem tryBind_run {m : ExceptT E (Async ε) α} {f : α → ExceptT E (Async ε) β} {u v : List ε} {a : α}
    {o : Option (Except E β)} (hm : m.run u (some (.ok a))) (hf : (f a).run v o) : (m >>= f).run (u ++ v) o :=
  .inr ⟨.ok a, u, v, hm, hf, rfl⟩

theorem tryBind_error {m : ExceptT E (Async ε) α} {f : α → ExceptT E (Async ε) β} {t : List ε} {e : E}
    (hm : m.run t (some (.error e))) : (m >>= f).run t (some (.error e)) :=
  .inr ⟨.error e, t, [], hm, ⟨rfl, fun _ h => (Option.some.inj h).symm⟩, (List.append_nil t).symm⟩

theorem tryNow_ok (a : Except E α) : (tryNow a : ExceptT E (Async ε) α).run [] (some a) :=
  Async.pure_iff.mpr ⟨rfl, rfl⟩

theorem tryIggy_run (event : Option (Except I.IggyError α) → ε) (a : Except I.IggyError α) :
    (tryIggy (Async.call event)).run [event (some a)] (some (a.mapError .iggy)) :=
  Async.bind_iff.mpr ⟨a, [event (some a)], [], Async.call_iff.mpr rfl, Async.pure_iff.mpr ⟨rfl, rfl⟩, rfl⟩

end Runs

/-- It is started, unless its request to create the topic fails. -/
theorem shop_started (a : Except Unit Unit) :
    ∃ r, (ConsumerRuntime.start Publisher.rawClient twoHandlers shopConfig).run (shopEvents a) (some r) ∧
      (a = .ok () → r = .ok ⟨[0], shopChecked.taskConfig⟩) := by
  have hmain : shopChecked.findMain.run [.getTopic "shop" "events" (some (.ok (some [0, 1])))] (some (.ok [0, 1])) :=
    tryBind_run (tryIggy_run _ (.ok (some [0, 1]))) (tryNow_ok (.ok [0, 1]))
  have hcreate : (tryIggy (Async.call (SetupEvent.createTopic shopChecked.stream (retryName shopChecked.topic) 2))).run
      [.createTopic "shop" "retry_events" 2 (some a)] (some (a.mapError .iggy)) :=
    tryIggy_run (SetupEvent.createTopic (I := Publisher.rawClient) "shop" "retry_events" 2) a
  have htopic : (shopChecked.ensureTopic 2 "retry_events").run [.getTopic "shop" "retry_events" (some (.ok none)),
      .createTopic "shop" "retry_events" 2 (some a)] (some (a.mapError .iggy)) :=
    tryBind_run (tryIggy_run _ (.ok none)) hcreate
  have hretry : (shopChecked.ensureRetry [0, 1]).run [.getTopic "shop" "retry_events" (some (.ok none)),
      .createTopic "shop" "retry_events" 2 (some a)] (some (a.mapError .iggy)) :=
    tryBind_run (tryNow_ok (.ok "retry_events")) htopic
  cases a with
  | error error =>
    exact ⟨_, tryBind_run (tryNow_ok (.ok shopChecked)) (tryBind_run hmain (tryBind_error hretry)), nofun⟩
  | ok u =>
    have hspawn : (tryNow (shopChecked.spawn [0, 1]) : ExceptT _ (Async (SetupEvent Publisher.rawClient)) _).run []
      (some (.ok ⟨[0], shopChecked.taskConfig⟩)) := tryNow_ok _
    exact ⟨_, tryBind_run (tryNow_ok (.ok shopChecked)) (tryBind_run hmain (tryBind_run hretry hspawn)), fun _ => rfl⟩

/-- The answers of the server in that run. -/
theorem shop_runs : (setups shopNames Bool).Runs shopTopics shopRun shopTopics' := by
  have hmain : shopTopics.Answers shopNames (.getTopic "shop" "events" (some (.ok (some [0, 1])))) shopTopics :=
    @Topics.Answers.told Publisher.rawClient shopNames shopTopics "shop" "events"
  have hnone : shopTopics.Answers shopNames (.getTopic "shop" "retry_events" (some (.ok none))) shopTopics :=
    @Topics.Answers.told Publisher.rawClient shopNames shopTopics "shop" "retry_events"
  have hcreated : shopTopics.Answers shopNames (.createTopic "shop" "retry_events" 2 (some (.ok ()))) shopTopics' :=
    .created created_shopTopics
  have hrefused : shopTopics'.Answers shopNames (.createTopic "shop" "retry_events" 2 (some (.error ()))) shopTopics' :=
    Topics.Answers.refused (I := Publisher.rawClient) "shop" "retry_events" 2 (nomatch Option.some.inj ·)
  exact World.Runs.step (World.Runs.step (World.Runs.step (World.Runs.step (World.Runs.step (World.Runs.step
    World.Runs.nil hmain) hmain) hnone) hnone) hcreated) hrefused

theorem naming_shop : Naming shopNames fun _ : Bool => twoHandlers := by
  rintro - topic - name - id hid
  change (if name.isEmpty then Except.error () else .ok name) = .ok id at hid
  split_ifs at hid
  exact (Except.ok.inj hid).symm

theorem starts_agree_shop : ∃ runtime,
    (ConsumerRuntime.start Publisher.rawClient twoHandlers shopConfig).run (entriesOf true shopRun)
      (some (.ok runtime)) ∧
      shopTopics'.Paired ∧ ∃ stream topic main retry, shopTopics' stream topic = some main ∧
      shopTopics' stream (retryName topic) = some retry ∧ retry.length = main.length ∧
        ∀ partition ∈ runtime.partitions, partition ∈ main := by
  obtain ⟨r, hr, hruntime⟩ := shop_started (.ok ())
  obtain rfl := hruntime rfl
  obtain ⟨r', hr', -⟩ := shop_started (.error ())
  have hstarts : ∀ i, ∃ o,
      (ConsumerRuntime.start Publisher.rawClient twoHandlers shopConfig).run (entriesOf i shopRun) o := by
    intro i
    cases i with
    | true => exact ⟨_, hr⟩
    | false => exact ⟨_, hr'⟩
  obtain ⟨hpaired, -, -, hall⟩ := starts_agree paired_shopTopics naming_shop shop_runs hstarts
  obtain ⟨stream, topic, main, retry, -, -, hmain, hretry, hlen, -, hin⟩ := hall true _ hr
  exact ⟨_, hr, hpaired, shopNames stream, topic, main, retry, hmain, hretry, hlen, hin⟩

end Wakuwaku.Iggy.Consumer
