import Wakuwaku.Iggy.Consumer.Handler
import Mathlib.Data.List.Nodup
import Mathlib.Data.List.Perm.Basic

/-! # Which handler a tag is dispatched to

Every method of the list of handlers goes through it by itself. In a list that `start` accepts each of
them resolves a tag to the one event type registered for it, whatever the order of registration
(`dispatchers_agree`). -/

namespace Wakuwaku.Iggy.Consumer

open Wakuwaku.Iggy.Events Wakuwaku.Iggy.Partition

variable {P O : Type}

/-! ### What `start` checks -/

/-- Why `start` refuses a list of handlers. -/
inductive StartError where
  | mixedTopics (first second : String)
  | duplicateEventType (tag : EventTypeTag)
  deriving DecidableEq, Repr

/-- The first tag that was seen before. -/
def findDuplicate (seen : List EventTypeTag) : List EventTypeTag → Option EventTypeTag
  | [] => none
  | tag :: tags => if tag ∈ seen then some tag else findDuplicate (tag :: seen) tags

/-- The checks of `start` on the handlers; the result is their topic. -/
def checkHandlers (handlers : HandlerList P O) : Except StartError String :=
  match handlers.topic with
  | .error (first, second) => .error (.mixedTopics first second)
  | .ok topic =>
    match findDuplicate [] handlers.collectTags with
    | some duplicate => .error (.duplicateEventType duplicate)
    | none => .ok topic

theorem findDuplicate_eq_none_iff : ∀ {tags seen : List EventTypeTag},
    findDuplicate seen tags = none ↔ tags.Nodup ∧ ∀ tag ∈ tags, tag ∉ seen
  | [], seen => by simp [findDuplicate]
  | tag :: tags, seen => by
    unfold findDuplicate
    split_ifs with h
    · refine ⟨fun h => (nomatch h), fun hnone => absurd h (hnone.2 tag List.mem_cons_self)⟩
    · rw [findDuplicate_eq_none_iff, List.nodup_cons, List.forall_mem_cons]
      constructor
      · rintro ⟨hnodup, hall⟩
        refine ⟨⟨fun hmem => hall tag hmem List.mem_cons_self, hnodup⟩, h, fun tag' hmem hseen => ?_⟩
        exact hall tag' hmem (List.mem_cons_of_mem _ hseen)
      · rintro ⟨⟨hnew, hnodup⟩, -, hall⟩
        refine ⟨hnodup, fun tag' hmem hseen => ?_⟩
        rcases List.mem_cons.mp hseen with rfl | hseen
        · exact hnew hmem
        · exact hall tag' hmem hseen

namespace HandlerList

/-! ### The registered handlers -/

/-- The registered handlers, the last one first. -/
def registered : HandlerList P O → List (Registered P O)
  | new head => [head]
  | push chain head => head :: chain.registered

theorem collectTags_eq : ∀ handlers : HandlerList P O,
    handlers.collectTags = handlers.registered.map Registered.tag
  | new _ => rfl
  | push chain head => congrArg (head.tag :: ·) (collectTags_eq chain)

/-- **The topic is that of every registered event.** -/
theorem topic_eq_ok_iff {topic : String} : ∀ {handlers : HandlerList P O},
    handlers.topic = .ok topic ↔ ∀ h ∈ handlers.registered, h.topic = topic
  | new head => by
    rw [HandlerList.topic, registered, List.forall_mem_singleton]
    exact ⟨fun h => Except.ok.inj h, fun h => congrArg _ h⟩
  | push chain head => by
    rw [registered, List.forall_mem_cons, ← topic_eq_ok_iff, HandlerList.topic]
    cases hchain : chain.topic with
    | error topics =>
      refine ⟨fun h => (nomatch h), fun h => (nomatch h.2)⟩
    | ok first =>
      show (if first ≠ head.topic then _ else _) = _ ↔ _
      split_ifs with hne
      · refine ⟨fun h => (nomatch h), ?_⟩
        rintro ⟨rfl, hfirst⟩
        exact absurd (Except.ok.inj hfirst) hne
      · rw [not_not] at hne
        exact ⟨fun h => ⟨hne ▸ Except.ok.inj h, h⟩, And.right⟩

theorem find_eq_find? {tag : EventTypeTag} : ∀ handlers : HandlerList P O,
    handlers.find tag = handlers.registered.find? (tag = ·.tag)
  | new head => by
    unfold find registered
    split_ifs with h
    · simp [h]
    · simp [h]
  | push chain head => by
    unfold find registered
    split_ifs with h
    · simp [h]
    · simp [h, find_eq_find? chain]

/-! ### What the methods do with a tag -/

/-- All methods use the handler `h` for a tag, the only one that is registered for it: they decode and
reduce a run with its type and its algebra, and hand over or serialize the same events. -/
structure Resolves (handlers : HandlerList P O) (tag : EventTypeTag) (h : Registered P O) : Prop where
  unique : ∀ h' ∈ handlers.registered, h'.tag = tag ↔ h' = h
  registered : h ∈ handlers.registered
  associativity : handlers.associativity tag = some h.algebra.associativity
  handleRun : ∀ run, handlers.handleRun tag run =
    Async.loop (h.handleFrom (h.algebra.reduce (run.filterMap h.decodeOne))) 0
  reduceRun : ∀ run, handlers.reduceRun tag run = h.encode (h.algebra.reduce (run.filterMap h.decodeOne))

/-- All methods drop a tag. -/
structure Drops (handlers : HandlerList P O) (tag : EventTypeTag) : Prop where
  associativity : handlers.associativity tag = none
  handleRun : ∀ run, handlers.handleRun tag run = pure .done
  reduceRun : ∀ run, handlers.reduceRun tag run = []

/-- Both lists do the same with every tag. -/
structure Agree (handlers handlers' : HandlerList P O) : Prop where
  associativity : ∀ tag, handlers.associativity tag = handlers'.associativity tag
  handleRun : ∀ tag run, handlers.handleRun tag run = handlers'.handleRun tag run
  reduceRun : ∀ tag run, handlers.reduceRun tag run = handlers'.reduceRun tag run

variable {handlers handlers' : HandlerList P O} {tag : EventTypeTag} {h : Registered P O}

theorem find_isSome_iff : (handlers.find tag).isSome ↔ tag ∈ handlers.collectTags := by
  rw [find_eq_find?, List.find?_isSome, collectTags_eq, List.mem_map]
  simp only [decide_eq_true_eq, @eq_comm _ tag]

/-- What is found is registered for the tag. -/
theorem mem_of_find (hfind : handlers.find tag = some h) : h ∈ handlers.registered ∧ h.tag = tag := by
  rw [find_eq_find?] at hfind
  have htag : decide (tag = h.tag) = true := by simpa using List.find?_some hfind
  exact ⟨List.mem_of_find?_eq_some hfind, (of_decide_eq_true htag).symm⟩

/-- **Without duplicates a tag finds the handler registered for it.** -/
theorem find_eq_some_iff (hnodup : handlers.collectTags.Nodup) :
    handlers.find tag = some h ↔ h ∈ handlers.registered ∧ h.tag = tag := by
  rw [collectTags_eq] at hnodup
  refine ⟨mem_of_find, ?_⟩
  rintro ⟨hmem, rfl⟩
  have hsome : (handlers.find h.tag).isSome := by
    rw [find_isSome_iff, collectTags_eq]
    exact List.mem_map_of_mem hmem
  obtain ⟨found, hfound⟩ := Option.isSome_iff_exists.mp hsome
  obtain ⟨hmem', htag⟩ := mem_of_find hfound
  rw [hfound, List.inj_on_of_nodup_map hnodup hmem' hmem htag]

theorem resolves_of_find (hnodup : handlers.collectTags.Nodup) (hfind : handlers.find tag = some h) :
    handlers.Resolves tag h where
  unique h' hmem := by
    constructor
    · intro htag
      have hfind' := (find_eq_some_iff hnodup).mpr ⟨hmem, htag⟩
      exact Option.some.inj (hfind'.symm.trans hfind)
    · rintro rfl
      exact (mem_of_find hfind).2
  registered := (mem_of_find hfind).1
  associativity := by rw [associativity_eq, hfind, Option.map_some]
  handleRun run := by
    rw [handleRun_eq, hfind]
    rfl
  reduceRun run := by
    rw [reduceRun_eq, hfind]
    rfl

theorem drops_of_find (hfind : handlers.find tag = none) : handlers.Drops tag where
  associativity := by rw [associativity_eq, hfind, Option.map_none]
  handleRun run := by rw [handleRun_eq, hfind]
  reduceRun run := by rw [reduceRun_eq, hfind]

theorem agree_of_find (hfind : ∀ tag, handlers.find tag = handlers'.find tag) : Agree handlers handlers' where
  associativity tag := by rw [associativity_eq, associativity_eq, hfind]
  handleRun tag run := by rw [handleRun_eq, handleRun_eq, hfind]
  reduceRun tag run := by rw [reduceRun_eq, reduceRun_eq, hfind]

/-- The order of registration does not matter. -/
theorem find_of_perm (hnodup : handlers.collectTags.Nodup) (hnodup' : handlers'.collectTags.Nodup)
    (hperm : handlers.registered.Perm handlers'.registered) (tag : EventTypeTag) :
    handlers.find tag = handlers'.find tag := by
  refine Option.ext fun h => ?_
  rw [find_eq_some_iff hnodup, find_eq_some_iff hnodup', hperm.mem_iff]

/-- A list that `start` accepts. -/
theorem checkHandlers_eq_ok_iff {topic : String} : checkHandlers handlers = .ok topic ↔
    (∀ h ∈ handlers.registered, h.topic = topic) ∧ handlers.collectTags.Nodup := by
  have hdistinct : findDuplicate [] handlers.collectTags = none ↔ handlers.collectTags.Nodup := by
    rw [findDuplicate_eq_none_iff]
    exact and_iff_left fun _ _ => List.not_mem_nil
  rw [← topic_eq_ok_iff, ← hdistinct]
  unfold checkHandlers
  cases handlers.topic with
  | error topics => exact ⟨fun h => (nomatch h), fun h => (nomatch h.1)⟩
  | ok found =>
    cases findDuplicate [] handlers.collectTags with
    | none => exact ⟨fun h => ⟨congrArg _ (Except.ok.inj h), rfl⟩, fun h => congrArg _ (Except.ok.inj h.1)⟩
    | some duplicate => exact ⟨fun h => (nomatch h), fun h => (nomatch h.2)⟩

end HandlerList

/-- **The dispatchers agree.** In a list that `start` accepts, a tag that `collectTags` holds is resolved
to the one event type registered for it by all methods, and any other tag is dropped by all of them. In
whatever order the same handlers are registered, `start` accepts them and every tag is resolved alike.
The topic of a list is the one that all its events name, if there is one. -/
theorem dispatchers_agree (handlers : HandlerList P O) {topic : String}
    (hstart : checkHandlers handlers = .ok topic) :
    (∀ tag, (handlers.associativity tag).isSome ↔ tag ∈ handlers.collectTags) ∧
      (∀ tag ∈ handlers.collectTags, ∃ h, handlers.Resolves tag h) ∧
      (∀ tag, tag ∉ handlers.collectTags → handlers.Drops tag) ∧
      (∀ handlers' : HandlerList P O, handlers'.registered.Perm handlers.registered →
        checkHandlers handlers' = .ok topic ∧ handlers'.Agree handlers) ∧
      ∀ (handlers' : HandlerList P O) (topic' : String),
        handlers'.topic = .ok topic' ↔ ∀ h ∈ handlers'.registered, h.topic = topic' := by
  obtain ⟨htopic, hnodup⟩ := HandlerList.checkHandlers_eq_ok_iff.mp hstart
  refine ⟨fun tag => ?_, fun tag htag => ?_, fun tag htag => ?_, fun handlers' hperm => ?_,
    fun handlers' topic' => HandlerList.topic_eq_ok_iff⟩
  · rw [HandlerList.associativity_eq, Option.isSome_map]
    exact HandlerList.find_isSome_iff
  · obtain ⟨h, hfind⟩ := Option.isSome_iff_exists.mp (HandlerList.find_isSome_iff.mpr htag)
    exact ⟨h, HandlerList.resolves_of_find hnodup hfind⟩
  · refine HandlerList.drops_of_find (Option.not_isSome_iff_eq_none.mp fun hsome => htag ?_)
    exact HandlerList.find_isSome_iff.mp hsome
  · have hnodup' : handlers'.collectTags.Nodup := by
      rw [HandlerList.collectTags_eq] at hnodup ⊢
      exact (hperm.map _).nodup_iff.mpr hnodup
    refine ⟨HandlerList.checkHandlers_eq_ok_iff.mpr ⟨fun h hmem => htopic h (hperm.mem_iff.mp hmem), hnodup'⟩, ?_⟩
    exact HandlerList.agree_of_find (HandlerList.find_of_perm hnodup' hnodup hperm)

/-- Two handlers of events that are sums and of events that are not. -/
def twoHandlers : HandlerList ℕ ℕ :=
  .push (.new (Registered.plain ⟨1⟩ (.nonAssociative : Marker ℕ))) (Registered.plain ⟨2⟩ (.associative (· + ·)))

theorem dispatchers_agree_two : (twoHandlers.associativity ⟨2⟩).isSome ∧ twoHandlers.Drops ⟨3⟩ := by
  have h := @dispatchers_agree _ _ twoHandlers "events" rfl
  exact ⟨(h.1 ⟨2⟩).mpr (by decide), h.2.2.1 ⟨3⟩ (by decide)⟩

end Wakuwaku.Iggy.Consumer
