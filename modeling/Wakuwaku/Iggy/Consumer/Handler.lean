import Wakuwaku.Async
import Wakuwaku.Iggy.Partition.Algebra

/-! # Event handlers and the list that dispatches runs to them

A run is decoded, reduced with the algebra of its type and handed to the handler of the type chunk by
chunk (`handleEvents`). What a handler does with an event is observed through `observe`, and each
call of a handler is one `Call`, answered by the environment. Nothing here looks into a payload, so
payloads are of any type `P`. -/

namespace Wakuwaku.Iggy.Consumer

open Wakuwaku.Iggy.Events Wakuwaku.Iggy.Partition

/-! ### Errors and results -/

/-- How the consumer reacts to a failed handler call. -/
inductive ErrorClass where
  | transient
  | retryable
  | unrecoverable
  deriving DecidableEq, Repr

/-- Error returned by a handler; the source is its text. -/
structure HandleError where
  errorClass : ErrorClass
  source : String
  deriving DecidableEq, Repr

/-- One record of a run, as stored in the log. -/
structure RunRecord (P : Type) where
  payload : P
  associativity : EventAssociativity
  deriving DecidableEq, Repr

/-- Outcome of a run: every chunk succeeded or was dropped, or a chunk failed, with the failed chunk
and every chunk after it, serialized. -/
inductive RunResult (P : Type) where
  | done
  | failed (error : String) (remainder : List P)
  deriving DecidableEq, Repr

/-- One call of a handler for events of type `tag`. There is no result if the call was cut off. -/
structure Call (O : Type) where
  tag : EventTypeTag
  chunk : List O
  result : Option (Except HandleError Unit)

/-- An event type with the handler registered for it. -/
structure Registered (P O : Type) : Type 1 where
  /-- The body that is published. -/
  Target : Type
  /-- `TYPE_TAG`. -/
  tag : EventTypeTag
  /-- `SUPER_PARTITION_NAME` of the key: the main topic. -/
  topic : String
  algebra : Algebra Target
  fromBytes : P → Except String Target
  toBytes : Target → Except String P
  /-- `MAX_BATCH`. -/
  maxBatch : ℕ
  maxBatch_pos : 0 < maxBatch
  /-- What the handler does with an event. -/
  observe : Target → O

variable {P O : Type}

/-! ### Handling one run -/

namespace Registered

variable (h : Registered P O)

/-- The event a record holds, unless it is dropped. -/
def decodeOne (record : RunRecord P) : Option h.Target :=
  if record.associativity ≠ h.algebra.associativity then none
  else (h.fromBytes record.payload).toOption

/-- Decode a run, dropping records that can't be decoded, and reduce it. -/
def decode (run : List (RunRecord P)) : List h.Target := h.algebra.reduce (run.filterMap h.decodeOne)

/-- Serialize events, dropping those that can't be serialized. -/
def encode (events : List h.Target) : List P := events.filterMap fun event => (h.toBytes event).toOption

/-- `handler.handle(chunk)`. -/
def handle (chunk : List h.Target) : Async (Call O) (Except HandleError Unit) :=
  Async.call fun result => ⟨h.tag, chunk.map h.observe, result⟩

/-- What follows a call: hand over the chunk again, or go on, with the error if the chunk failed. -/
def afterHandle : Except HandleError Unit → Unit ⊕ Option String
  | .ok () => .inr none
  | .error error =>
    match error.errorClass with
    | .transient => .inl ()
    | .unrecoverable => .inr none
    | .retryable => .inr (some error.source)

/-- Hand over one chunk, again after each transient error. The result is the error of a chunk that
fails. -/
def handleChunk (chunk : List h.Target) : Async (Call O) (Option String) :=
  Async.loop (fun _ => do
    let result ← h.handle chunk
    return afterHandle result) ()

/-- Hand over the chunk from `start` on, if there is one. -/
def handleFrom (events : List h.Target) (start : ℕ) : Async (Call O) (ℕ ⊕ RunResult P) :=
  if start < events.length then do
    let stop := min (start + h.maxBatch) events.length
    let error ← h.handleChunk ((events.drop start).take (stop - start))
    return match error with
      | none => .inl stop
      | some error => .inr (.failed error (h.encode (events.drop start)))
  else
    return .inr .done

/-- Decode, reduce and hand over a run. -/
def handleEvents (run : List (RunRecord P)) : Async (Call O) (RunResult P) :=
  Async.loop (h.handleFrom (h.decode run)) 0

variable {h} in
/-- A failed run hands back the events from some chunk on. -/
theorem remainder_of_handleEvents {run : List (RunRecord P)} {t : List (Call O)} {error : String}
    {remainder : List P} (ht : h.handleEvents run t (some (.failed error remainder))) :
    ∃ start, remainder = h.encode ((h.decode run).drop start) := by
  obtain ⟨start, u, hu⟩ := Async.exists_last ht
  unfold handleFrom at hu
  split_ifs at hu
  · obtain ⟨result, v, x, -, hx, -⟩ := Async.bind_iff.mp hu
    cases result with
    | none => cases (Async.pure_iff.mp hx).2
    | some error =>
      have := (Async.pure_iff.mp hx).2
      simp only [Sum.inr.injEq, RunResult.failed.injEq] at this
      exact ⟨start, this.2⟩
  · cases (Async.pure_iff.mp hu).2

end Registered

/-! ### The list of handlers -/

/-- A list of registered handlers, which `push` extends. -/
inductive HandlerList (P O : Type) : Type 1 where
  | new (head : Registered P O)
  | push (chain : HandlerList P O) (head : Registered P O)

namespace HandlerList

/-- The main topic shared by every registered event, or the two that differ. -/
def topic : HandlerList P O → Except (String × String) String
  | new head => .ok head.topic
  | push chain head => do
    let first ← chain.topic
    if first ≠ head.topic then .error (first, head.topic) else .ok first

/-- The tag of every registered event. -/
def collectTags : HandlerList P O → List EventTypeTag
  | new head => [head.tag]
  | push chain head => head.tag :: chain.collectTags

/-- Associativity of the event registered for `tag`. -/
def associativity (tag : EventTypeTag) : HandlerList P O → Option EventAssociativity
  | new head => if tag = head.tag then some head.algebra.associativity else none
  | push chain head =>
    if tag = head.tag then some head.algebra.associativity else chain.associativity tag

/-- Decode, reduce and handle the records of one run with type `tag`. -/
def handleRun (tag : EventTypeTag) (run : List (RunRecord P)) :
    HandlerList P O → Async (Call O) (RunResult P)
  | new head => if tag ≠ head.tag then return .done else head.handleEvents run
  | push chain head => if tag ≠ head.tag then chain.handleRun tag run else head.handleEvents run

/-- Decode and reduce a run, then serialize the reduced events. -/
def reduceRun (tag : EventTypeTag) (run : List (RunRecord P)) : HandlerList P O → List P
  | new head => if tag ≠ head.tag then [] else head.encode (head.decode run)
  | push chain head => if tag ≠ head.tag then chain.reduceRun tag run else head.encode (head.decode run)

/-- The handler the list dispatches `tag` to: the one registered last. -/
def find (tag : EventTypeTag) : HandlerList P O → Option (Registered P O)
  | new head => if tag = head.tag then some head else none
  | push chain head => if tag = head.tag then some head else chain.find tag

variable {tag : EventTypeTag} {h : Registered P O}

theorem associativity_eq : ∀ handlers : HandlerList P O,
    handlers.associativity tag = (handlers.find tag).map fun h => h.algebra.associativity
  | new head => by
    unfold associativity find
    split_ifs <;> rfl
  | push chain head => by
    unfold associativity find
    split_ifs
    · rfl
    · exact associativity_eq chain

theorem handleRun_eq (run : List (RunRecord P)) : ∀ handlers : HandlerList P O,
    handlers.handleRun tag run = match handlers.find tag with
      | some h => h.handleEvents run
      | none => pure .done
  | new head => by
    unfold handleRun find
    by_cases ht : tag = head.tag
    · simp [ht]
    · simp [ht]
  | push chain head => by
    unfold handleRun find
    by_cases ht : tag = head.tag
    · simp [ht]
    · simpa [ht] using handleRun_eq run chain

theorem reduceRun_eq (run : List (RunRecord P)) : ∀ handlers : HandlerList P O,
    handlers.reduceRun tag run = match handlers.find tag with
      | some h => h.encode (h.decode run)
      | none => []
  | new head => by
    unfold reduceRun find
    by_cases ht : tag = head.tag
    · simp [ht]
    · simp [ht]
  | push chain head => by
    unfold reduceRun find
    by_cases ht : tag = head.tag
    · simp [ht]
    · simpa [ht] using reduceRun_eq run chain

end HandlerList

/-- A handler of events that are their own payload, one event a chunk. -/
def Registered.plain {E : Type} (tag : EventTypeTag) (marker : Marker E) : Registered E E where
  Target := E
  tag
  topic := "events"
  algebra := marker.algebra
  fromBytes := .ok
  toBytes := .ok
  maxBatch := 1
  maxBatch_pos := Nat.one_pos
  observe := id

end Wakuwaku.Iggy.Consumer
