import Wakuwaku.Async
import Wakuwaku.Grouped
import Wakuwaku.Iggy.Events.Headers

/-! # Publishing

A batch is serialized whole, grouped by the hashes of the keys, and sent group by group until a send fails.
Iggy's client is a parameter (`IggyClient`). -/

namespace Wakuwaku.Iggy.Events

/-- What the publisher uses of Iggy. -/
structure IggyClient extends IggyHeaders where
  Identifier : Type
  /-- `Identifier::try_from`. -/
  identifier : String → Except IggyError Identifier
  /-- `IggyMessage::builder().payload(body).user_headers(headers).build()`. -/
  build : List UInt8 → (String → Option HeaderValue) → Except IggyError IggyMessage

/-- An event type. -/
structure Event (E : Type) where
  typeTag : EventTypeTag
  superPartitionName : String
  /-- `key_hash(&event.key())`. -/
  keyHash : E → UInt64
  algebraicProperties : E → EventAlgebraicProperties
  /-- `into_event_body().to_bytes()`. -/
  toBytes : E → Except String (List UInt8)

/-- Why a batch was not published. -/
inductive PublishError (I : IggyClient) where
  | iggy (error : I.IggyError)
  | serialize (error : String)

/-- A request of the publisher: `send_messages`, with its answer unless the publisher was dropped. -/
structure Send (I : IggyClient) where
  stream : I.Identifier
  topic : I.Identifier
  partitioning : UInt64
  messages : List I.IggyMessage
  answer : Option (Except I.IggyError Unit)

structure Publisher (I : IggyClient) where
  stream : I.Identifier

variable {I : IggyClient} {E : Type}

/-- Main topic of an event type. -/
def Publisher.topic (I : IggyClient) (event : Event E) : Except (PublishError I) I.Identifier :=
  (I.identifier event.superPartitionName).mapError .iggy

/-- Serialize an event into a message, returning it with its key hash. -/
def Publisher.toMessage (I : IggyClient) (event : Event E) (e : E) :
    Except (PublishError I) (UInt64 × I.IggyMessage) := do
  let key := event.keyHash e
  let properties := event.algebraicProperties e
  let body ← (event.toBytes e).mapError .serialize
  let headers ← (EventHeaders.toMap I.toIggyHeaders ⟨event.typeTag, key, properties⟩ none).mapError .iggy
  let message ← (I.build body headers).mapError .iggy
  return (key, message)

/-- The groups of a batch so far, with the place of each key hash. -/
structure Batch (M : Type) where
  slots : UInt64 → Option ℕ
  groups : List (UInt64 × List M)

namespace Batch

variable {M : Type}

def empty : Batch M := ⟨fun _ => none, []⟩

/-- Add a message to the group of its key hash. -/
def push (batch : Batch M) (key : UInt64) (message : M) : Batch M :=
  match (batch.slots key).bind fun slot => (batch.groups[slot]?).map (slot, ·) with
  | some (slot, hash, messages) => { batch with groups := batch.groups.set slot (hash, messages ++ [message]) }
  | none => {
      slots := fun hash => if hash = key then some batch.groups.length else batch.slots hash
      groups := batch.groups ++ [(key, [message])] }

end Batch

namespace Publisher

/-- Send the groups in order, up to the first that fails. -/
def sendGroups (publisher : Publisher I) (topic : I.Identifier) :
    List (UInt64 × List I.IggyMessage) → Async (Send I) (Except (PublishError I) Unit)
  | [] => return .ok ()
  | (key, messages) :: groups => do
    match ← Async.call fun answer => ⟨publisher.stream, topic, key, messages, answer⟩ with
    | .error error => return .error (.iggy error)
    | .ok () => publisher.sendGroups topic groups

/-- Serialize events into the groups of a batch. -/
def collect (I : IggyClient) (event : Event E) (events : List E) (batch : Batch I.IggyMessage) :
    Except (PublishError I) (Batch I.IggyMessage) :=
  events.foldlM (fun batch e => do
    let (key, message) ← toMessage I event e
    return batch.push key message) batch

/-- Serialize events and send them to the main topic of their key type. -/
def publishBatch (publisher : Publisher I) (event : Event E) (events : List E) :
    Async (Send I) (Except (PublishError I) Unit) :=
  match topic I event with
  | .error error => pure (.error error)
  | .ok topic =>
    match collect I event events .empty with
    | .error error => pure (.error error)
    | .ok batch => publisher.sendGroups topic batch.groups

end Publisher

/-! ### The groups -/

namespace Batch

variable {M : Type} {batch : Batch M} {entries : List (UInt64 × M)}

/-- A batch holds the stable grouping of what it was given, and knows the place of every group. -/
structure Holds (batch : Batch M) (entries : List (UInt64 × M)) : Prop where
  grouped : Grouped entries batch.groups
  found : ∀ key slot, batch.slots key = some slot → ∃ messages, batch.groups[slot]? = some (key, messages)
  missing : ∀ key, batch.slots key = none → ∀ messages, (key, messages) ∉ batch.groups

theorem holds_empty : (empty : Batch M).Holds [] := ⟨.nil, nofun, fun _ _ _ => List.not_mem_nil⟩

theorem Holds.push (h : batch.Holds entries) (key : UInt64) (message : M) :
    (batch.push key message).Holds (entries ++ [(key, message)]) := by
  unfold Batch.push
  cases hslot : batch.slots key with
  | none =>
    have hnew : key ∉ batch.groups.map Prod.fst := by
      intro hmem
      obtain ⟨⟨hash, messages⟩, hgroup, rfl⟩ := List.mem_map.mp hmem
      exact h.missing hash hslot messages hgroup
    refine ⟨h.grouped.new hnew, fun hash slot hfound => ?_, fun hash hnone messages hmem => ?_⟩
    · simp only [Option.bind_none] at hfound ⊢
      split_ifs at hfound with he
      · obtain rfl := Option.some.inj hfound
        exact ⟨[message], he ▸ List.getElem?_concat_length⟩
      · obtain ⟨messages, hget⟩ := h.found hash slot hfound
        exact ⟨messages, by rw [List.getElem?_append_left (List.getElem?_eq_some_iff.mp hget).1, hget]⟩
    · simp only [Option.bind_none] at hnone hmem
      split_ifs at hnone with he
      rcases List.mem_append.mp hmem with hmem | hmem
      · exact h.missing hash hnone messages hmem
      · exact he (congrArg Prod.fst (List.mem_singleton.mp hmem))
  | some slot =>
    obtain ⟨messages, hget⟩ := h.found key slot hslot
    obtain ⟨hlt, hgroup⟩ := List.getElem?_eq_some_iff.mp hget
    have hsplit : batch.groups = batch.groups.take slot ++ (key, messages) :: batch.groups.drop (slot + 1) := by
      rw [← hgroup, List.getElem_cons_drop, List.take_append_drop]
    simp only [Option.bind_some, hget, Option.map_some]
    refine ⟨?_, fun hash slot' hfound => ?_, fun hash hnone messages' hmem => ?_⟩
    · rw [List.set_eq_take_append_cons_drop, if_pos hlt]
      exact (hsplit ▸ h.grouped).join
    · obtain ⟨messages', hget'⟩ := h.found hash slot' hfound
      rw [List.getElem?_set]
      split_ifs with he
      · subst he
        rw [hget] at hget'
        cases hget'
        exact ⟨_, rfl⟩
      · exact ⟨messages', hget'⟩
    · rcases List.mem_or_eq_of_mem_set hmem with hmem | he
      · exact h.missing hash hnone messages' hmem
      · obtain ⟨rfl, -⟩ := Prod.mk.inj he
        cases hslot.symm.trans hnone

theorem Holds.foldl (h : batch.Holds entries) (messages : List (UInt64 × M)) :
    (messages.foldl (fun batch m => batch.push m.1 m.2) batch).Holds (entries ++ messages) := by
  induction messages generalizing batch entries with
  | nil => rwa [List.append_nil]
  | cons m messages ih =>
    have hpush := ih (h.push m.1 m.2)
    rwa [List.append_assoc] at hpush

end Batch

namespace Publisher

variable {event : Event E} {events : List E}

/-- Events that all serialize are grouped. -/
theorem collect_messages (batch : Batch I.IggyMessage) {messages : List (UInt64 × I.IggyMessage)}
    (h : events.map (toMessage I event) = messages.map .ok) :
    collect I event events batch = .ok (messages.foldl (fun batch m => batch.push m.1 m.2) batch) := by
  induction events generalizing messages batch with
  | nil =>
    obtain rfl := List.map_eq_nil_iff.mp h.symm
    rfl
  | cons e events ih =>
    cases messages with
    | nil => cases h
    | cons m messages =>
      obtain ⟨he, hrest⟩ := List.cons.inj h
      change (toMessage I event e >>= _) >>= _ = _
      rw [he]
      exact ih _ hrest

/-- An event that does not serialize fails the batch. -/
theorem collect_failed (batch : Batch I.IggyMessage) {e : E} {error : PublishError I} (he : e ∈ events)
    (herror : toMessage I event e = .error error) : ∃ error, collect I event events batch = .error error := by
  induction events generalizing batch with
  | nil => cases he
  | cons e' events ih =>
    change ∃ error, (toMessage I event e' >>= _) >>= _ = _
    cases hm : toMessage I event e' with
    | error error' => exact ⟨error', rfl⟩
    | ok m =>
      rcases List.mem_cons.mp he with rfl | he
      · cases hm.symm.trans herror
      · exact ih _ he

/-! ### The requests -/

/-- The request that sends a group. -/
def send (publisher : Publisher I) (name : I.Identifier) (answer : Option (Except I.IggyError Unit))
    (group : UInt64 × List I.IggyMessage) : Send I :=
  ⟨publisher.stream, name, group.1, group.2, answer⟩

/-- The requests for groups that were sent. -/
def sent (publisher : Publisher I) (name : I.Identifier) (groups : List (UInt64 × List I.IggyMessage)) :
    List (Send I) := groups.map (publisher.send name (some (.ok ())))

/-- Groups are sent in order: all of them, or those before one whose send fails, or those before the publisher
is dropped. -/
inductive Sends (publisher : Publisher I) (name : I.Identifier) (groups : List (UInt64 × List I.IggyMessage)) :
    List (Send I) → Option (Except (PublishError I) Unit) → Prop
  | all : Sends publisher name groups (publisher.sent name groups) (some (.ok ()))
  | failed (before) {group after error} (h : groups = before ++ group :: after) :
    Sends publisher name groups
      (publisher.sent name before ++ [publisher.send name (some (.error error)) group])
      (some (.error (.iggy error)))
  | dropped (before) {after last} (h : groups = before ++ after)
    (hlast : last = [] ∨ ∃ answer group, after.head? = some group ∧ last = [publisher.send name answer group]) :
    Sends publisher name groups (publisher.sent name before ++ last) none

variable {publisher : Publisher I} {name : I.Identifier} {groups : List (UInt64 × List I.IggyMessage)}
  {t : List (Send I)} {o : Option (Except (PublishError I) Unit)}

theorem Sends.cons {group : UInt64 × List I.IggyMessage} (h : Sends publisher name groups t o) :
    Sends publisher name (group :: groups) (publisher.send name (some (.ok ())) group :: t) o := by
  cases h with
  | all => exact .all
  | failed before h => exact .failed (group :: before) (congrArg _ h)
  | dropped before h hlast => exact .dropped (group :: before) (congrArg _ h) hlast

theorem sends_of_sendGroups : ∀ {groups : List (UInt64 × List I.IggyMessage)} {t : List (Send I)}
    {o : Option (Except (PublishError I) Unit)}, publisher.sendGroups name groups t o →
      Sends publisher name groups t o
  | [], t, o, ⟨ht, ho⟩ => by
    subst ht
    cases o with
    | none => exact .dropped [] rfl (.inl rfl)
    | some r => exact ho r rfl ▸ .all
  | group :: groups, t, o, h => by
    have hlast : ∀ answer, Sends publisher name (group :: groups) [publisher.send name answer group] none :=
      fun answer => .dropped [] rfl (.inr ⟨answer, group, rfl, rfl⟩)
    rcases h with ⟨⟨-, rfl | rfl⟩ | ⟨answer, rfl, -⟩, rfl⟩ | ⟨answer, u, v, hcall, hrest, rfl⟩
    · exact .dropped [] rfl (.inl rfl)
    · exact hlast none
    · exact hlast (some answer)
    · obtain rfl := Async.call_iff.mp hcall
      cases answer with
      | error error =>
        obtain ⟨rfl, ho⟩ := hrest
        cases o with
        | none => exact hlast (some (.error error))
        | some r => exact ho r rfl ▸ .failed [] rfl
      | ok _ => exact (sends_of_sendGroups hrest).cons

/-- Every send can succeed. -/
theorem sendGroups_sent : ∀ groups : List (UInt64 × List I.IggyMessage),
    publisher.sendGroups name groups (publisher.sent name groups) (some (.ok ()))
  | [] => Async.pure_iff.mpr ⟨rfl, rfl⟩
  | group :: groups => Async.bind_iff.mpr ⟨.ok (), [publisher.send name (some (.ok ())) group],
      publisher.sent name groups, Async.call_iff.mpr rfl, sendGroups_sent groups, rfl⟩

/-- **A batch is published by a stable grouping.** If an event does not serialize or build, or the topic is not
valid, nothing is sent. Otherwise the groups of the messages are sent in order, up to the first whose send
fails. -/
theorem publishBatch_stable (publisher : Publisher I) (event : Event E) (events : List E) :
    ((∃ error, topic I event = .error error) ∨ (∃ e ∈ events, ∃ error, toMessage I event e = .error error) →
      ∀ t o, publisher.publishBatch event events t o → t = [] ∧ ∀ r, o = some r → ∃ error, r = .error error) ∧
    ∀ name messages, topic I event = .ok name → events.map (toMessage I event) = messages.map .ok →
      ∃ groups, Grouped messages groups ∧ (∀ group ∈ groups, group.2 ≠ []) ∧
        publisher.publishBatch event events (publisher.sent name groups) (some (.ok ())) ∧
        ∀ t o, publisher.publishBatch event events t o → Sends publisher name groups t o := by
  constructor
  · rintro (⟨error, htopic⟩ | ⟨e, he, error, herror⟩) t o h
    · unfold publishBatch at h
      rw [htopic] at h
      exact ⟨h.1, fun r hr => ⟨error, h.2 r hr⟩⟩
    · obtain ⟨error', hcollect⟩ := collect_failed .empty he herror
      unfold publishBatch at h
      cases htopic : topic I event with
      | error error =>
        rw [htopic] at h
        exact ⟨h.1, fun r hr => ⟨error, h.2 r hr⟩⟩
      | ok name =>
        rw [htopic] at h
        simp only [hcollect] at h
        exact ⟨h.1, fun r hr => ⟨error', h.2 r hr⟩⟩
  · intro name messages htopic hmessages
    have hholds := Batch.holds_empty.foldl messages
    rw [List.nil_append] at hholds
    have hrun : publisher.publishBatch event events = publisher.sendGroups name
        (messages.foldl (fun batch m => batch.push m.1 m.2) Batch.empty).groups := by
      unfold publishBatch
      rw [htopic]
      simp only [collect_messages .empty hmessages]
    rw [hrun]
    exact ⟨_, hholds.grouped, hholds.grouped.ne_nil, sendGroups_sent _, fun t o h => sends_of_sendGroups h⟩

/-- A client whose messages are bodies with their header maps. -/
def rawClient : IggyClient where
  HeaderValue := List UInt8
  IggyMessage := List UInt8 × (String → Option (List UInt8))
  IggyError := Unit
  tryFrom bytes := if 1 ≤ bytes.length ∧ bytes.length ≤ 255 then .ok bytes else .error ()
  asBytes := id
  userHeaders map := ([], map)
  userHeadersMap message := .ok (some message.2)
  Identifier := String
  identifier name := if name.isEmpty then .error () else .ok name
  build body map := .ok (body, map)

/-- Events that are their key hashes and bodies, which may not be empty. -/
def rawEvent : Event (UInt64 × List UInt8) where
  typeTag := ⟨7⟩
  superPartitionName := "orders"
  keyHash := Prod.fst
  algebraicProperties _ := ⟨.relaxed, .commutative⟩
  toBytes e := if e.2.isEmpty then .error "empty" else .ok e.2

/-- The messages of events that serialize. -/
def rawMessages (events : List (UInt64 × List UInt8)) : List (UInt64 × rawClient.IggyMessage) :=
  events.filterMap fun e => (toMessage rawClient rawEvent e).toOption

/-- A batch of two keys, and one with an event that does not serialize. -/
theorem publishBatch_stable_raw :
    let publisher : Publisher rawClient := ⟨"events"⟩
    let events : List (UInt64 × List UInt8) := [(1, [65]), (2, [66]), (1, [67])]
    (∀ t o, publisher.publishBatch rawEvent [(1, [65]), (2, [])] t o →
      t = [] ∧ ∀ r, o = some r → ∃ error, r = .error error) ∧
    ∃ groups, Grouped (rawMessages events) groups ∧ (∀ group ∈ groups, group.2 ≠ []) ∧
      publisher.publishBatch rawEvent events (publisher.sent "orders" groups) (some (.ok ())) ∧
      ∀ t o, publisher.publishBatch rawEvent events t o → Sends publisher "orders" groups t o := by
  intro publisher events
  exact ⟨(publishBatch_stable publisher rawEvent [(1, [65]), (2, [])]).1
      (.inr ⟨(2, []), by simp, .serialize "empty", rfl⟩),
    (publishBatch_stable publisher rawEvent events).2 "orders" (rawMessages events) rfl rfl⟩

end Publisher

end Wakuwaku.Iggy.Events
