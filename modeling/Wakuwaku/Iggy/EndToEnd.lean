import Wakuwaku.Iggy.Events.Publisher
import Wakuwaku.Iggy.Consumer.Runtime.Applied

/-! # From a publisher to the handlers

A topic has several partitions, and each message goes to the partition of the key hash that it was sent under.
One task reads each partition, and the tasks run side by side, so their calls are interleaved in any way. Still,
the handlers leave the state as the messages do in the order in which Iggy accepted them (`applied_of_tasks`), and
a batch that was published adds its events in their order (`published_applied`). -/

namespace Wakuwaku.Iggy.EndToEnd

open Events Wakuwaku.Iggy.Partition Consumer Consumer.Applied Reorder World

variable {I : IggyClient} {S E : Type}

/-! ### What a message does -/

/-- A message holds the body and the headers that it was built from. -/
structure Builds (I : IggyClient) (payload : I.IggyMessage → List UInt8) : Prop where
  headers : I.toIggyHeaders.Lawful
  built : ∀ body map message, I.build body map = .ok message →
    payload message = body ∧ I.userHeadersMap message = .ok (some map)

variable {payload : I.IggyMessage → List UInt8} {handlers : HandlerList (List UInt8) (S → S)}

/-- What a message does to the state. A message with bad headers does nothing. -/
def effectOfMessage (handlers : HandlerList (List UInt8) (S → S)) (payload : I.IggyMessage → List UInt8)
    (message : I.IggyMessage) : S → S :=
  match EventHeaders.parse I.toIggyHeaders message with
  | .ok (headers, _) => effectOf handlers ⟨0, headers, payload message⟩
  | .error _ => id

/-- A message of the log, as it was sent. -/
def Logged (payload : I.IggyMessage → List UInt8) (log : List I.IggyMessage)
    (polled : PolledMessage I.toIggyHeaders (List UInt8)) : Prop :=
  polled.message ∈ log ∧ polled.payload = payload polled.message

/-- The records of logged messages keep their laws. -/
def LawfulLog (handlers : HandlerList (List UInt8) (S → S)) (payload : I.IggyMessage → List UInt8)
    (log : List I.IggyMessage) : Prop :=
  ∀ messages, (∀ message ∈ messages, Logged payload log message) → Lawful handlers (parseMain messages)

theorem LawfulLog.subset {log log' : List I.IggyMessage} (h : LawfulLog handlers payload log) (hsub : log' ⊆ log) :
    LawfulLog handlers payload log' := fun messages hm =>
  h messages fun message hmessage => ⟨hsub (hm message hmessage).1, (hm message hmessage).2⟩

/-- The effect of a record is that of its message. -/
theorem effectOf_mainRecord {polled : PolledMessage I.toIggyHeaders (List UInt8)}
    (hpayload : polled.payload = payload polled.message) :
    (mainRecord polled).elim id (effectOf handlers) = effectOfMessage handlers payload polled.message := by
  unfold mainRecord parseRecord effectOfMessage
  cases EventHeaders.parse I.toIggyHeaders polled.message with
  | error error => rfl
  | ok parsed =>
    rw [← hpayload]
    rfl

/-- Applying a log is applying its messages. -/
theorem applyLog_parseMain {messages : List (PolledMessage I.toIggyHeaders (List UInt8))}
    (h : ∀ message ∈ messages, message.payload = payload message.message) :
    applyLog handlers (parseMain messages) =
      runAll (messages.map fun message => effectOfMessage handlers payload message.message) := by
  rw [Semantics.applyLog_eq, parseMain_eq]
  induction messages with
  | nil => rfl
  | cons message messages ih =>
    have hrest := ih fun m hm => h m (List.mem_cons_of_mem _ hm)
    rw [List.map_cons, runAll_cons, ← hrest, ← effectOf_mainRecord (h message List.mem_cons_self)]
    cases hrecord : mainRecord message with
    | none => rw [List.filterMap_cons_none hrecord]; rfl
    | some record => rw [List.filterMap_cons_some hrecord]; rfl

/-! ### One partition -/

/-- A task that read its partition from the first message to the last, in any sessions. -/
structure ReadAll (task : PartitionTask I.toIggyHeaders (List UInt8) (S → S)) (payload : I.IggyMessage → List UInt8)
    (log : List I.IggyMessage) (s : Moment I.toIggyHeaders (List UInt8) (S → S)) : Prop where
  sessions : ∃ start : Server I.toIggyHeaders (List UInt8), start.retry.messages = [] ∧ start.main.stored = none ∧
    (∀ message ∈ start.main.messages, Logged payload log message) ∧
      Sessions (healthy (Logged payload log)) task.run.run start.opening s
  log : s.1.main.messages.map (·.message) = log
  read : s.1.main.next ≤ nextOf s.1.main.stored

section ReadAll

variable {task : PartitionTask I.toIggyHeaders (List UInt8) (S → S)} {log : List I.IggyMessage}
  {s : Moment I.toIggyHeaders (List UInt8) (S → S)}

theorem ReadAll.caught (h : ReadAll task payload log s) (law : LawfulLog task.handlers payload log) :
    Caught (Logged payload log) task.handlers 0 (nextOf s.1.main.stored) s := by
  obtain ⟨start, hretry, hstored, hlogged, hsessions⟩ := h.sessions
  have hfirst : nextOf start.main.stored = 0 := by rw [hstored]; rfl
  have hcaught := caught_of_sessions law hretry hlogged (by rw [hfirst]; exact Nat.zero_le _) hsessions
  rwa [hfirst] at hcaught

/-- It applied its log. -/
theorem ReadAll.applied (h : ReadAll task payload log s) (law : LawfulLog task.handlers payload log) :
    applyCalls (callsOf s.2) = runAll (log.map (effectOfMessage task.handlers payload)) := by
  have hcaught := h.caught law
  have hall : between s.1.main 0 (nextOf s.1.main.stored) = s.1.main.messages := by
    refine List.filter_eq_self.mpr fun message hm => ?_
    have hbelow := s.1.main.below message hm
    have hread := h.read
    simp only [decide_eq_true_eq]
    omega
  rw [hcaught.applied, hall, applyLog_parseMain fun message hm => (hcaught.known message hm).2, ← h.log, List.map_map]
  rfl

/-- What commutes with its messages commutes with everything that it handed over. -/
theorem ReadAll.commutes (h : ReadAll task payload log s) (law : LawfulLog task.handlers payload log) {g : S → S}
    (hg : ∀ message ∈ log, Function.Commute (effectOfMessage task.handlers payload message) g) :
    ∀ call ∈ callsOf s.2, Function.Commute (runAll call.chunk) g := by
  intro call hcall
  refine commute_runAll fun f hf => (h.caught law).commutes call hcall f hf g fun message hm record hrecord => ?_
  have hmessage : (mainRecord message).elim id (effectOf task.handlers) = _ := effectOf_mainRecord hm.2
  rw [hrecord] at hmessage
  have heffect : effectOf task.handlers record = effectOfMessage task.handlers payload message.message := hmessage
  rw [heffect]
  exact hg message.message hm.1

end ReadAll

/-! ### The topic -/

/-- Messages carry the key hashes that they were sent under. -/
def WellKeyed (accepted : List (UInt64 × I.IggyMessage)) : Prop :=
  ∀ entry ∈ accepted, ∀ headers retry, EventHeaders.parse I.toIggyHeaders entry.2 = .ok (headers, retry) →
    headers.key = entry.1

/-- The log of a partition: the messages that are routed there. -/
def logOf {n : ℕ} (route : UInt64 → Fin n) (accepted : List (UInt64 × I.IggyMessage)) (p : Fin n) :
    List I.IggyMessage := entriesOf p (accepted.map fun entry => (route entry.1, entry.2))

section Topic

variable {n : ℕ} {route : UInt64 → Fin n} {accepted : List (UInt64 × I.IggyMessage)}

theorem logOf_subset (p : Fin n) : logOf route accepted p ⊆ accepted.map Prod.snd := by
  intro message hm
  obtain ⟨entry, hentry, he⟩ := List.mem_map.mp (mem_entriesOf.mp hm)
  obtain ⟨-, rfl⟩ := Prod.mk.inj he
  exact List.mem_map_of_mem hentry

/-- Messages of different key hashes commute. -/
theorem commute_of_keys (law : LawfulLog handlers payload (accepted.map Prod.snd)) (hkeys : WellKeyed accepted)
    {a b : UInt64 × I.IggyMessage} (ha : a ∈ accepted) (hb : b ∈ accepted) (hne : a.1 ≠ b.1) :
    Function.Commute (effectOfMessage handlers payload a.2) (effectOfMessage handlers payload b.2) := by
  let polled (e : UInt64 × I.IggyMessage) : PolledMessage I.toIggyHeaders (List UInt8) := ⟨0, e.2, payload e.2⟩
  have hlaw := law [polled a, polled b] fun message hm => by
    rcases List.mem_cons.mp hm with rfl | hm
    · exact ⟨List.mem_map_of_mem ha, rfl⟩
    · obtain rfl := List.mem_singleton.mp hm
      exact ⟨List.mem_map_of_mem hb, rfl⟩
  unfold effectOfMessage
  cases hpa : EventHeaders.parse I.toIggyHeaders a.2 with
  | error error => exact fun s => rfl
  | ok parsed =>
    cases hpb : EventHeaders.parse I.toIggyHeaders b.2 with
    | error error => exact fun s => rfl
    | ok parsed' =>
      refine hlaw.keys _ ?_ _ ?_ ?_
      · rw [parseMain_eq]
        refine List.mem_filterMap.mpr ⟨polled a, List.mem_cons_self, ?_⟩
        unfold mainRecord parseRecord
        rw [show EventHeaders.parse I.toIggyHeaders (polled a).message = _ from hpa]
        rfl
      · rw [parseMain_eq]
        refine List.mem_filterMap.mpr ⟨polled b, List.mem_cons_of_mem _ (List.mem_singleton_self _), ?_⟩
        unfold mainRecord parseRecord
        rw [show EventHeaders.parse I.toIggyHeaders (polled b).message = _ from hpb]
        rfl
      · change parsed.1.key ≠ parsed'.1.key
        rwa [hkeys a ha parsed.1 parsed.2 hpa, hkeys b hb parsed'.1 parsed'.2 hpb]

variable {tasks : Fin n → PartitionTask I.toIggyHeaders (List UInt8) (S → S)}
  {s : Fin n → Moment I.toIggyHeaders (List UInt8) (S → S)} {t : List (Fin n × Call (S → S))}

/-- **Tasks side by side apply what Iggy accepted**, in the order in which it was accepted. -/
theorem applied_of_tasks (law : LawfulLog handlers payload (accepted.map Prod.snd)) (hkeys : WellKeyed accepted)
    (hhandlers : ∀ p, (tasks p).handlers = handlers)
    (hread : ∀ p, ReadAll (tasks p) payload (logOf route accepted p) (s p))
    (ht : ∀ p, entriesOf p t = callsOf (s p).2) :
    applyCalls (t.map Prod.snd) = runAll (accepted.map fun entry => effectOfMessage handlers payload entry.2) := by
  have hlaw : ∀ p, LawfulLog (tasks p).handlers payload (logOf route accepted p) := fun p => by
    rw [hhandlers]
    exact law.subset (logOf_subset p)
  have hroute : ∀ {p q : Fin n} {m m'}, m ∈ logOf route accepted p → m' ∈ logOf route accepted q → p ≠ q →
      Function.Commute (effectOfMessage handlers payload m) (effectOfMessage handlers payload m') := by
    intro p q m m' hm hm' hne
    obtain ⟨a, ha, hap⟩ := List.mem_map.mp (mem_entriesOf.mp hm)
    obtain ⟨b, hb, hbq⟩ := List.mem_map.mp (mem_entriesOf.mp hm')
    obtain ⟨rfl, rfl⟩ := Prod.mk.inj hap
    obtain ⟨rfl, rfl⟩ := Prod.mk.inj hbq
    exact commute_of_keys law hkeys ha hb fun he => hne (congrArg route he)
  have hcalls : ∀ a ∈ t, ∀ b ∈ t, a.1 ≠ b.1 → Function.Commute (runAll a.2.chunk) (runAll b.2.chunk) := by
    rintro ⟨p, call⟩ ha ⟨q, call'⟩ hb hne
    have hcall : call ∈ callsOf (s p).2 := ht p ▸ mem_entriesOf.mpr ha
    have hcall' : call' ∈ callsOf (s q).2 := ht q ▸ mem_entriesOf.mpr hb
    refine (hread p).commutes (hlaw p) (fun m hm => ?_) call hcall
    refine ((hread q).commutes (hlaw q) (fun m' hm' => ?_) call' hcall').symm
    rw [hhandlers, hhandlers]
    exact (hroute hm hm' hne).symm
  have hmessages : runAll (accepted.map fun entry => effectOfMessage handlers payload entry.2) =
      runAll ((accepted.map fun entry => (route entry.1, entry.2)).map fun entry =>
        effectOfMessage handlers payload entry.2) := by
    rw [List.map_map]
    rfl
  rw [hmessages, runAll_by_key (List.nodup_finRange n) (fun _ _ => List.mem_finRange _) ?_]
  · have htasks : applyCalls (t.map Prod.snd) = runAll (t.map fun entry => runAll entry.2.chunk) := by
      rw [Semantics.applyCalls_eq, List.flatMap_map, ← runAll_flatMap]
    rw [htasks, runAll_by_key (List.nodup_finRange n) (fun _ _ => List.mem_finRange _) hcalls]
    congr 2
    funext p
    have happlied := (hread p).applied (hlaw p)
    rw [hhandlers, Semantics.applyCalls_eq, ← runAll_flatMap] at happlied
    rw [ht p]
    exact happlied
  · intro a ha b hb hne
    exact hroute (mem_entriesOf.mpr ha) (mem_entriesOf.mpr hb) hne

end Topic

/-! ### Publishing -/

/-- The requests that Iggy carried out: those it answered, and maybe those without an answer or with an error. -/
inductive CarriedOut : List (Send I) → List (Send I) → Prop
  | nil : CarriedOut [] []
  | done {request requests carried} (h : CarriedOut requests carried) :
    CarriedOut (request :: requests) (request :: carried)
  | lost {request requests carried} (hanswer : request.answer ≠ some (.ok ())) (h : CarriedOut requests carried) :
    CarriedOut (request :: requests) carried

/-- The messages of requests, with the key hashes that they were sent under. -/
def messagesOf (requests : List (Send I)) : List (UInt64 × I.IggyMessage) :=
  requests.flatMap fun request => request.messages.map (request.partitioning, ·)

/-- The messages of groups. -/
def ungroup (groups : List (UInt64 × List I.IggyMessage)) : List (UInt64 × I.IggyMessage) :=
  groups.flatMap fun group => group.2.map (group.1, ·)

section Publish

variable {publisher : Publisher I} {name : I.Identifier} {groups : List (UInt64 × List I.IggyMessage)}
  {requests carried : List (Send I)} {o : Option (Except (PublishError I) Unit)}

theorem messagesOf_sent (groups : List (UInt64 × List I.IggyMessage)) :
    messagesOf (publisher.sent name groups) = ungroup groups := by
  rw [messagesOf, Publisher.sent, List.flatMap_map]
  rfl

theorem carriedOut_sent : ∀ {groups : List (UInt64 × List I.IggyMessage)} {carried : List (Send I)},
    CarriedOut (publisher.sent name groups) carried → carried = publisher.sent name groups
  | [], _, .nil => rfl
  | _ :: _, _, .done h => congrArg _ (carriedOut_sent h)
  | _ :: _, _, .lost hanswer _ => absurd rfl hanswer

theorem CarriedOut.split : ∀ {before after carried : List (Send I)}, CarriedOut (before ++ after) carried →
    ∃ carried₁ carried₂, carried = carried₁ ++ carried₂ ∧ CarriedOut before carried₁ ∧ CarriedOut after carried₂
  | [], _, _, h => ⟨[], _, rfl, .nil, h⟩
  | _ :: _, _, _, .done h => by
    obtain ⟨carried₁, carried₂, rfl, h₁, h₂⟩ := h.split
    exact ⟨_ :: carried₁, carried₂, rfl, h₁.done, h₂⟩
  | _ :: _, _, _, .lost hanswer h => by
    obtain ⟨carried₁, carried₂, rfl, h₁, h₂⟩ := h.split
    exact ⟨carried₁, carried₂, rfl, h₁.lost hanswer, h₂⟩

theorem CarriedOut.single {request : Send I} {carried : List (Send I)} (h : CarriedOut [request] carried) :
    carried = [] ∨ carried = [request] := by
  cases h with
  | done h => cases h; exact .inr rfl
  | lost _ h => cases h; exact .inl rfl

/-- Whole groups are carried out, from the first one on, and all of them if the batch was published. -/
theorem carried_groups (h : Publisher.Sends publisher name groups requests o) (hc : CarriedOut requests carried) :
    ∃ groups', groups' <+: groups ∧ messagesOf carried = ungroup groups' ∧ (o = some (.ok ()) → groups' = groups) := by
  have hlast : ∀ {before after carried : _} {answer group}, groups = before ++ group :: after →
      CarriedOut (publisher.sent name before ++ [publisher.send name answer group]) carried →
        ∃ groups', groups' <+: groups ∧ messagesOf carried = ungroup groups' := by
    rintro before after carried answer group rfl hc
    obtain ⟨carried₁, carried₂, rfl, h₁, h₂⟩ := hc.split
    obtain rfl := carriedOut_sent h₁
    rcases h₂.single with rfl | rfl
    · exact ⟨before, List.prefix_append _ _, by rw [List.append_nil, messagesOf_sent]⟩
    · refine ⟨before ++ [group], ⟨after, by simp⟩, ?_⟩
      rw [messagesOf, List.flatMap_append]
      change messagesOf (publisher.sent name before) ++ _ = _
      rw [messagesOf_sent, ungroup, ungroup, List.flatMap_append]
      rfl
  cases h with
  | all =>
    obtain rfl := carriedOut_sent hc
    exact ⟨groups, List.prefix_refl _, messagesOf_sent groups, fun _ => rfl⟩
  | failed before h =>
    obtain ⟨groups', hprefix', hmessages⟩ := hlast h hc
    exact ⟨groups', hprefix', hmessages, nofun⟩
  | dropped before h hl =>
    rcases hl with rfl | ⟨answer, group, hhead, rfl⟩
    · rw [List.append_nil] at hc
      obtain rfl := carriedOut_sent hc
      exact ⟨before, h ▸ List.prefix_append _ _, messagesOf_sent before, nofun⟩
    · obtain ⟨rest, rfl⟩ := List.head?_eq_some_iff.mp hhead
      obtain ⟨groups', hprefix', hmessages⟩ := hlast h hc
      exact ⟨groups', hprefix', hmessages, nofun⟩

end Publish

/-! ### Events -/

/-- A handler decodes what the bodies of the events are encoded to. -/
structure Handles (h : Registered (List UInt8) (S → S)) (event : Event E) (body : E → h.Target) : Prop where
  associativity : ∀ e, (event.algebraicProperties e).associativity = h.algebra.associativity
  decodes : ∀ e bytes, event.toBytes e = .ok bytes → h.fromBytes bytes = .ok (body e)

section Events

variable {event : Event E} {events : List E}

/-- What a message is built from. -/
theorem of_toMessage {e : E} {key : UInt64} {message : I.IggyMessage}
    (h : Publisher.toMessage I event e = .ok (key, message)) : key = event.keyHash e ∧
      ∃ bytes map, event.toBytes e = .ok bytes ∧ I.build bytes map = .ok message ∧
        EventHeaders.toMap I.toIggyHeaders ⟨event.typeTag, event.keyHash e, event.algebraicProperties e⟩ none =
          .ok map := by
  obtain ⟨bytes, hbytes, h⟩ := bind_eq_ok_iff.mp h
  obtain ⟨map, hmap, h⟩ := bind_eq_ok_iff.mp h
  obtain ⟨built, hbuild, h⟩ := bind_eq_ok_iff.mp h
  obtain ⟨rfl, rfl⟩ := Prod.mk.inj (Except.ok.inj h)
  exact ⟨rfl, bytes, map, mapError_eq_ok_iff.mp hbytes, mapError_eq_ok_iff.mp hbuild, mapError_eq_ok_iff.mp hmap⟩

/-- A message is read as its event. -/
theorem parse_of_toMessage (hI : Builds I payload) {e : E} {key : UInt64} {message : I.IggyMessage}
    (h : Publisher.toMessage I event e = .ok (key, message)) : EventHeaders.parse I.toIggyHeaders message =
      .ok (⟨event.typeTag, event.keyHash e, event.algebraicProperties e⟩, none) := by
  obtain ⟨-, bytes, map, -, hbuild, hmap⟩ := of_toMessage h
  obtain ⟨written, hwritten, hw⟩ := toMap_written hI.headers
    ⟨event.typeTag, event.keyHash e, event.algebraicProperties e⟩ none
  obtain rfl := Except.ok.inj (hmap.symm.trans hwritten)
  exact parse_ok_iff.mpr ⟨map, (hI.built bytes map message hbuild).2, hw⟩

/-- **A message does what its event does.** -/
theorem effectOfMessage_event (hI : Builds I payload) {h : Registered (List UInt8) (S → S)}
    (hfind : handlers.find event.typeTag = some h) {body : E → h.Target} (hh : Handles h event body) {e : E}
    {key : UInt64} {message : I.IggyMessage} (hm : Publisher.toMessage I event e = .ok (key, message)) :
    effectOfMessage handlers payload message = h.observe (body e) := by
  obtain ⟨-, bytes, map, hbytes, hbuild, -⟩ := of_toMessage hm
  have hdecode : h.decodeOne ⟨payload message, (event.algebraicProperties e).associativity⟩ = some (body e) := by
    rw [Registered.decodeOne, if_neg (by simp [hh.associativity e]), (hI.built bytes map message hbuild).1,
      hh.decodes e bytes hbytes]
    rfl
  unfold effectOfMessage effectOf ParsedRecord.run
  rw [parse_of_toMessage hI hm]
  dsimp only
  rw [hfind]
  dsimp only
  rw [hdecode]
  rfl

/-- A batch sends the groups of its messages, or nothing. -/
theorem publishBatch_cases {publisher : Publisher I} {requests : List (Send I)}
    {o : Option (Except (PublishError I) Unit)} (h : publisher.publishBatch event events requests o) :
    (requests = [] ∧ o ≠ some (.ok ())) ∨ ∃ name messages groups,
      events.map (Publisher.toMessage I event) = messages.map .ok ∧ Grouped messages groups ∧
        Publisher.Sends publisher name groups requests o := by
  unfold Publisher.publishBatch at h
  cases htopic : Publisher.topic I event with
  | error error =>
    rw [htopic] at h
    exact .inl ⟨h.1, fun ho => nomatch h.2 _ ho⟩
  | ok name =>
    rw [htopic] at h
    dsimp only at h
    by_cases hall : ∃ e ∈ events, ∃ error, Publisher.toMessage I event e = .error error
    · obtain ⟨e, he, error, herror⟩ := hall
      obtain ⟨error', hcollect⟩ := Publisher.collect_failed .empty he herror
      rw [hcollect] at h
      exact .inl ⟨h.1, fun ho => nomatch h.2 _ ho⟩
    · obtain ⟨messages, hmessages⟩ : ∃ messages : List (UInt64 × I.IggyMessage),
          events.map (Publisher.toMessage I event) = messages.map .ok := by
        clear h htopic
        induction events with
        | nil => exact ⟨[], rfl⟩
        | cons e events ih =>
          obtain ⟨messages, hrest⟩ := ih fun ⟨e', he', herror⟩ => hall ⟨e', List.mem_cons_of_mem _ he', herror⟩
          cases hm : Publisher.toMessage I event e with
          | error error => exact absurd ⟨e, List.mem_cons_self, error, hm⟩ hall
          | ok message => exact ⟨message :: messages, by rw [List.map_cons, hm, hrest, List.map_cons]⟩
      rw [Publisher.collect_messages .empty hmessages] at h
      have hholds := Batch.holds_empty.foldl messages
      rw [List.nil_append] at hholds
      exact .inr ⟨name, messages, _, hmessages, hholds.grouped, Publisher.sends_of_sendGroups h⟩

theorem carriedOut_self : ∀ requests : List (Send I), CarriedOut requests requests
  | [] => .nil
  | _ :: requests => (carriedOut_self requests).done

/-- A batch whose events serialize can be published. -/
theorem exists_publish (publisher : Publisher I) {name : I.Identifier} (htopic : Publisher.topic I event = .ok name)
    {messages : List (UInt64 × I.IggyMessage)}
    (hmessages : events.map (Publisher.toMessage I event) = messages.map .ok) :
    ∃ requests, publisher.publishBatch event events requests (some (.ok ())) := by
  refine ⟨publisher.sent name (messages.foldl (fun batch m => batch.push m.1 m.2) Batch.empty).groups, ?_⟩
  unfold Publisher.publishBatch
  rw [htopic]
  dsimp only
  rw [Publisher.collect_messages .empty hmessages]
  exact Publisher.sendGroups_sent _

/-- The messages of some keys do what their events do. -/
theorem effects_of_keys (hI : Builds I payload) {h : Registered (List UInt8) (S → S)}
    (hfind : handlers.find event.typeTag = some h) {body : E → h.Target} (hh : Handles h event body)
    (keys : List UInt64) : ∀ {events : List E} {messages : List (UInt64 × I.IggyMessage)},
      events.map (Publisher.toMessage I event) = messages.map .ok →
        (messages.filter (·.1 ∈ keys)).map (fun entry => effectOfMessage handlers payload entry.2) =
          (events.filter (event.keyHash · ∈ keys)).map fun e => h.observe (body e)
  | [], [], _ => rfl
  | [], _ :: _, hm => by cases hm
  | _ :: _, [], hm => by cases hm
  | e :: events, (key, message) :: messages, hm => by
    obtain ⟨he, hrest⟩ := List.cons.inj hm
    obtain ⟨rfl, -⟩ := of_toMessage he
    have hkeys := effects_of_keys hI hfind hh keys hrest
    by_cases hmem : event.keyHash e ∈ keys
    · rw [List.filter_cons_of_pos (by simpa using hmem), List.filter_cons_of_pos (by simpa using hmem), List.map_cons,
        List.map_cons, hkeys, effectOfMessage_event hI hfind hh he]
    · rw [List.filter_cons_of_neg (by simpa using hmem), List.filter_cons_of_neg (by simpa using hmem), hkeys]

end Events

/-! ### The whole way -/

section Published

variable {event : Event E} {events : List E} {h : Registered (List UInt8) (S → S)} {body : E → h.Target}
  {publisher : Publisher I} {requests carried : List (Send I)} {o : Option (Except (PublishError I) Unit)}

/-- What is carried out of a batch is what the events of some keys do, and of all of them if the batch was
published. -/
theorem exists_keys (hI : Builds I payload) (hfind : handlers.find event.typeTag = some h)
    (hh : Handles h event body) (hpublish : publisher.publishBatch event events requests o)
    (hcarried : CarriedOut requests carried) (law : LawfulLog handlers payload ((messagesOf carried).map Prod.snd)) :
    WellKeyed (messagesOf carried) ∧ ∃ keys : List UInt64,
      (o = some (.ok ()) → ∀ e ∈ events, event.keyHash e ∈ keys) ∧
        runAll ((messagesOf carried).map fun entry => effectOfMessage handlers payload entry.2) =
          runAll ((events.filter (event.keyHash · ∈ keys)).map fun e => h.observe (body e)) := by
  rcases publishBatch_cases hpublish with ⟨rfl, ho⟩ | ⟨name, messages, groups, hmessages, hgrouped, hsends⟩
  · obtain rfl : carried = [] := by
      cases hcarried
      rfl
    refine ⟨fun entry hentry => absurd hentry List.not_mem_nil, [], fun hok => absurd hok ho, ?_⟩
    rw [List.filter_eq_nil_iff.mpr fun e _ => by simp]
    rfl
  · obtain ⟨first, hfirst, hungroup, hall⟩ := carried_groups hsends hcarried
    have hentries : ∀ k, entriesOf k (messagesOf carried) =
        entriesOf k (messages.filter (·.1 ∈ first.map Prod.fst)) := by
      intro k
      rw [hungroup]
      exact hgrouped.entriesOf_prefix hfirst k
    have hkeyed : WellKeyed (messagesOf carried) := by
      rintro ⟨key, message⟩ hentry headers retry hparse
      have hmem := mem_entriesOf.mp (hentries key ▸ mem_entriesOf.mpr hentry)
      have hm := List.mem_map_of_mem (f := Except.ok (ε := PublishError I)) (List.mem_of_mem_filter hmem)
      rw [← hmessages] at hm
      obtain ⟨e, -, he⟩ := List.mem_map.mp hm
      obtain ⟨rfl, -⟩ := Prod.mk.inj (Except.ok.inj (hparse.symm.trans (parse_of_toMessage hI he)))
      exact (of_toMessage he).1.symm
    refine ⟨hkeyed, first.map Prod.fst, fun hok e he => ?_, ?_⟩
    · have hm := List.mem_map_of_mem (f := Publisher.toMessage I event) he
      rw [hmessages] at hm
      obtain ⟨⟨key, message⟩, hentry, hmessage⟩ := List.mem_map.mp hm
      obtain ⟨rfl, -⟩ := of_toMessage hmessage.symm
      rw [hall hok]
      exact (hgrouped.keys.mem_iff _).mpr (List.mem_map_of_mem hentry)
    · rw [runAll_of_entriesOf (fun a ha b hb hne => commute_of_keys law hkeyed ha hb hne) hentries,
        effects_of_keys hI hfind hh _ hmessages]

/-- **What is published is applied in its order**, whatever became of the publishing: the handlers of a topic,
whose tasks run side by side and whose calls all succeed, leave the state as what was in the topic before does,
and then as the events of the batch do, each once and in their order. A batch that was not published to its end
is applied for some of its keys, and of each key as a whole. -/
theorem published_applied (hI : Builds I payload) (hfind : handlers.find event.typeTag = some h)
    (hh : Handles h event body) (hpublish : publisher.publishBatch event events requests o)
    (hcarried : CarriedOut requests carried) {before : List (UInt64 × I.IggyMessage)} (hbefore : WellKeyed before)
    (law : LawfulLog handlers payload ((before ++ messagesOf carried).map Prod.snd)) {n : ℕ} (route : UInt64 → Fin n)
    {tasks : Fin n → PartitionTask I.toIggyHeaders (List UInt8) (S → S)}
    (hhandlers : ∀ p, (tasks p).handlers = handlers)
    {s : Fin n → Moment I.toIggyHeaders (List UInt8) (S → S)}
    (hread : ∀ p, ReadAll (tasks p) payload (logOf route (before ++ messagesOf carried) p) (s p))
    {t : List (Fin n × Call (S → S))} (ht : ∀ p, entriesOf p t = callsOf (s p).2) :
    ∃ keys : List UInt64, (o = some (.ok ()) → ∀ e ∈ events, event.keyHash e ∈ keys) ∧
      applyCalls (t.map Prod.snd) =
        runAll ((events.filter (event.keyHash · ∈ keys)).map fun e => h.observe (body e)) ∘
          runAll (before.map fun entry => effectOfMessage handlers payload entry.2) := by
  have hnew : LawfulLog handlers payload ((messagesOf carried).map Prod.snd) :=
    law.subset (List.map_subset _ (List.subset_append_right _ _))
  obtain ⟨hkeyed, keys, hall, heffect⟩ := exists_keys hI hfind hh hpublish hcarried hnew
  refine ⟨keys, hall, ?_⟩
  have hboth : WellKeyed (before ++ messagesOf carried) := fun entry hentry =>
    (List.mem_append.mp hentry).elim (hbefore entry) (hkeyed entry)
  rw [applied_of_tasks law hboth hhandlers hread ht, List.map_append, runAll_append, heffect]

end Published

/-! ### A topic with two partitions -/

/-- A partition with nothing in it. -/
def fresh : TopicPartition I.toIggyHeaders (List UInt8) := ⟨[], 0, none, .nil, nofun⟩

/-- A server with a log, and nothing in the retry partition. -/
def holding (payload : I.IggyMessage → List UInt8) (log : List I.IggyMessage) :
    Server I.toIggyHeaders (List UInt8) :=
  ⟨TopicPartition.append fresh (log.map fun message => (message, payload message)), fresh⟩

theorem messages_holding (log : List I.IggyMessage) :
    (holding payload log).main.messages.map (fun message => (message.message, message.payload)) =
      log.map fun message => (message, payload message) := by
  have hnumbered : ∀ (batch : List (I.IggyMessage × List UInt8)) (next : ℕ),
      (numbered (I := I.toIggyHeaders) next batch).map (fun message => (message.message, message.payload)) = batch := by
    intro batch
    induction batch with
    | nil => exact fun _ => rfl
    | cons entry batch ih =>
      intro next
      rw [numbered, List.zipIdx_cons, List.map_cons, List.map_cons]
      exact congrArg _ (ih (next + 1))
  exact hnumbered _ 0

theorem logged_holding (log : List I.IggyMessage) :
    ∀ message ∈ (holding payload log).main.messages, Logged payload log message := by
  intro message hm
  have hentry := List.mem_map_of_mem (f := fun message => (message.message, message.payload)) hm
  rw [messages_holding] at hentry
  obtain ⟨m, hmem, he⟩ := List.mem_map.mp hentry
  obtain ⟨rfl, hpayload⟩ := Prod.mk.inj he
  exact ⟨hmem, hpayload.symm⟩

theorem getLast_holding (init : List I.IggyMessage) (message : I.IggyMessage) :
    (holding payload (init ++ [message])).main.messages.getLast? =
      some ⟨init.length, message, payload message⟩ := by
  change (List.map _ (((init ++ [message]).map _).zipIdx 0)).getLast? = _
  rw [List.map_append, List.zipIdx_append, List.map_append]
  simp

/-- A task can read any log. -/
theorem exists_readAll {task : PartitionTask I.toIggyHeaders (List UInt8) (S → S)}
    (hmode : task.config.mode = .noEventLose) {log : List I.IggyMessage} (hcount : log.length ≤ task.config.pollCount) :
    ∃ s, ReadAll task payload log s := by
  have hlog : (holding payload log).main.messages.map (·.message) = log := by
    simpa [Function.comp_def] using congrArg (List.map Prod.fst) (messages_holding log)
  rcases List.eq_nil_or_concat log with rfl | ⟨init, last, rfl⟩
  · exact ⟨(holding payload []).opening, ⟨_, rfl, rfl, logged_holding [], .start⟩, hlog, Nat.zero_le _⟩
  · rw [List.concat_eq_append] at hcount hlog ⊢
    have hlength : (holding payload (init ++ [last])).main.messages.length ≤ task.config.pollCount := by
      rw [← List.length_map (·.message), hlog]
      exact hcount
    have hall : (holding payload (init ++ [last])).main.messages <+:
        (holding payload (init ++ [last])).main.rest 0 := by simp [TopicPartition.rest]
    obtain ⟨past, hsession⟩ : ∃ past, Sessions (healthy (Logged payload (init ++ [last]))) task.run.run
        (holding payload (init ++ [last])).opening ((holding payload (init ++ [last])).put .main init.length, past) :=
      exists_session [] hmode (getLast_holding init last) hlength hall rfl .start
    refine ⟨_, ⟨_, rfl, rfl, logged_holding _, hsession⟩, hlog, ?_⟩
    change 0 + ((init ++ [last]).map _).length ≤ init.length + 1
    simp

/-- A batch body, as an event whose key is its first byte. -/
def bodyEvent : Event (List UInt8) where
  typeTag := ⟨1⟩
  superPartitionName := "bodies"
  keyHash body := body.headI.toUInt64
  algebraicProperties _ := ⟨.relaxed, .nonAssociative⟩
  toBytes := .ok

/-- A handler that adds up lengths. -/
def lengths : Registered (List UInt8) (ℕ → ℕ) where
  Target := List UInt8
  tag := ⟨1⟩
  topic := "bodies"
  algebra := (Marker.nonAssociative : Marker (List UInt8)).algebra
  fromBytes := .ok
  toBytes := .ok
  maxBatch := 1
  maxBatch_pos := Nat.one_pos
  observe body total := total + body.length

/-- A task that polls more than `count` messages. -/
def lengthsTask (count : ℕ) : PartitionTask Publisher.rawClient.toIggyHeaders (List UInt8) (ℕ → ℕ) where
  handlers := .new lengths
  config := ⟨.noEventLose, [11], List.cons_ne_nil _ _, count + 1, Nat.succ_ne_zero count, 10⟩
  build body map := .ok (body, map)

/-- Even key hashes go to one partition, odd ones to the other. -/
def parity (key : UInt64) : Fin 2 := ⟨key.toNat % 2, Nat.mod_lt _ Nat.two_pos⟩

theorem builds_rawClient : Builds Publisher.rawClient Prod.fst where
  headers := ⟨fun bytes h1 h255 => ⟨bytes, if_pos ⟨h1, h255⟩, rfl⟩, fun _ => rfl⟩
  built := by
    rintro body map message ⟨⟩
    exact ⟨rfl, rfl⟩

theorem handles_lengths : Handles lengths bodyEvent id where
  associativity _ := rfl
  decodes := by
    rintro e bytes ⟨⟩
    rfl

theorem lawful_lengths (records : List (ParsedRecord (List UInt8))) : Lawful (.new lengths) records := by
  have hlaw : (.nonAssociative : Marker (List UInt8)).Law lengths.observe fun _ => True := trivial
  exact lawful_new _ rfl hlaw (fun a b total => Nat.add_right_comm total b.length a.length) records

/-- Three events of two keys are published, and their lengths are added up. -/
theorem published_applied_lengths : ∃ (requests : List (Send Publisher.rawClient))
    (s : Fin 2 → Moment Publisher.rawClient.toIggyHeaders (List UInt8) (ℕ → ℕ)) (t : List (Fin 2 × Call (ℕ → ℕ))),
      (⟨"events"⟩ : Publisher Publisher.rawClient).publishBatch bodyEvent [[65], [66, 67], [65, 68, 69]] requests
        (some (.ok ())) ∧ (∀ p, entriesOf p t = callsOf (s p).2) ∧ applyCalls (t.map Prod.snd) 0 = 6 := by
  obtain ⟨requests, hpublish⟩ := exists_publish (⟨"events"⟩ : Publisher Publisher.rawClient)
    (show Publisher.topic Publisher.rawClient bodyEvent = .ok "bodies" from rfl)
    (show [[65], [66, 67], [65, 68, 69]].map (Publisher.toMessage Publisher.rawClient bodyEvent) =
      ([[65], [66, 67], [65, 68, 69]].filterMap fun e =>
        (Publisher.toMessage Publisher.rawClient bodyEvent e).toOption).map .ok from rfl)
  have hread : ∀ p : Fin 2, ∃ s, ReadAll (lengthsTask (logOf parity ([] ++ messagesOf requests) p).length) Prod.fst
      (logOf parity ([] ++ messagesOf requests) p) s := fun p => exists_readAll rfl (Nat.le_succ _)
  choose s hread using hread
  have hcalls : ∀ p, entriesOf p ((List.finRange 2).flatMap fun p => (callsOf (s p).2).map (p, ·)) =
      callsOf (s p).2 := by
    intro p
    rw [entriesOf_flatMap (List.nodup_finRange 2), if_pos (List.mem_finRange p)]
  obtain ⟨keys, hall, happlied⟩ := published_applied builds_rawClient
    (show (HandlerList.new lengths).find bodyEvent.typeTag = some lengths from rfl) handles_lengths hpublish
    (carriedOut_self requests) (show WellKeyed [] from nofun) (fun _ _ => lawful_lengths _) parity
    (show ∀ p, (lengthsTask (logOf parity ([] ++ messagesOf requests) p).length).handlers = .new lengths from
      fun _ => rfl) hread hcalls
  refine ⟨requests, s, (List.finRange 2).flatMap fun p => (callsOf (s p).2).map (p, ·), hpublish, hcalls, ?_⟩
  rw [happlied, List.filter_eq_self.mpr fun e he => by simpa using hall rfl e he]
  rfl

end Wakuwaku.Iggy.EndToEnd
