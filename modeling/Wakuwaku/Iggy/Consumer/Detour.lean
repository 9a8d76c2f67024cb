import Wakuwaku.Iggy.Consumer.Chunks
import Wakuwaku.Iggy.Consumer.Encode

/-! # A detour through retry

A run that goes through the retry topic is decoded, reduced, serialized, written with the header of its
type, and then decoded and reduced once more. Reduction leaves a reduced run as it is, and so do its
suffixes, so the handler gets the events that it would have got from the run itself. -/

namespace Wakuwaku.Iggy.Consumer

open Wakuwaku.Iggy.Events Wakuwaku.Iggy.Partition

variable {P O : Type}

/-- What a handler gets of an entry that was written and read back. -/
def RetryEntry.record (entry : RetryEntry P) : RunRecord P :=
  ⟨entry.payload, entry.headers.properties.associativity⟩

/-- Every event can be serialized, and reads back. -/
def Registered.Codec (h : Registered P O) : Prop :=
  ∀ event, ∃ payload, h.toBytes event = .ok payload ∧ h.fromBytes payload = .ok event

section Written

variable {h : Registered P O}

theorem length_stageOrderings (kind : StageKind) (len : ℕ) : (stageOrderings kind len).length = len := by
  simp [stageOrderings]

/-- The records that the entries of a run read back as. -/
theorem map_record_pushRun {handlers : HandlerList P O} {run : Run}
    (hf : handlers.find run.tag = some h) (key : UInt64) (kind : StageKind) (payloads : List P) :
    (pushRun handlers key kind run payloads).map RetryEntry.record =
      payloads.map fun payload => ⟨payload, h.algebra.associativity⟩ := by
  have hassoc : handlers.associativity run.tag = some h.algebra.associativity := by
    rw [HandlerList.associativity_eq, hf, Option.map_some]
  have hfst : (payloads.zip (stageOrderings kind payloads.length)).map Prod.fst = payloads :=
    List.map_fst_zip (Nat.le_of_eq (length_stageOrderings kind _).symm)
  unfold pushRun
  rw [hassoc]
  conv_rhs => rw [← hfst]
  rw [List.map_map, List.map_map]
  rfl

/-- The header that is written is the one that reading expects. -/
theorem filterMap_decodeOne (payloads : List P) :
    (payloads.map fun payload => (⟨payload, h.algebra.associativity⟩ : RunRecord P)).filterMap
      h.decodeOne = payloads.filterMap fun payload => (h.fromBytes payload).toOption := by
  rw [List.filterMap_map]
  refine List.filterMap_congr fun payload _ => ?_
  exact if_neg fun hne => hne rfl

/-- What was serialized reads back. -/
theorem Registered.Codec.filterMap_encode (codec : h.Codec) (events : List h.Target) :
    (h.encode events).filterMap (fun payload => (h.fromBytes payload).toOption) = events := by
  unfold Registered.encode
  rw [List.filterMap_filterMap]
  calc (events.filterMap fun event => (h.toBytes event).toOption.bind fun payload =>
        (h.fromBytes payload).toOption)
      = events.filterMap some := List.filterMap_congr fun event _ => by
        obtain ⟨payload, hto, hfrom⟩ := codec event
        rw [hto]
        show (h.fromBytes payload).toOption = some event
        rw [hfrom]
        rfl
    _ = events := List.filterMap_some

/-- Written events are reduced once more when they are read back. -/
theorem decode_pushRun {handlers : HandlerList P O} {run : Run} (hf : handlers.find run.tag = some h)
    (codec : h.Codec) (key : UInt64) (kind : StageKind) (events : List h.Target) :
    h.decode ((pushRun handlers key kind run (h.encode events)).map RetryEntry.record) =
      h.algebra.reduce events := by
  unfold Registered.decode
  rw [map_record_pushRun hf, filterMap_decodeOne, codec.filterMap_encode]

end Written

/-- A run as its handler sees it depends on the decoded events only. -/
theorem Registered.handleEvents_congr {h : Registered P O} {records records' : List (RunRecord P)}
    (hd : h.decode records = h.decode records') : h.handleEvents records = h.handleEvents records' := by
  unfold Registered.handleEvents
  rw [hd]

section Detour

variable {handlers : HandlerList P O} {h : Registered P O} {m : Marker h.Target} {run : Run}

/-- **The detour of a suffix of a reduced run** hands over that suffix. -/
theorem decode_detour (hm : h.algebra = m.algebra) (hf : handlers.find run.tag = some h)
    (codec : h.Codec) (key : UInt64) (kind : StageKind) (records : List (RunRecord P)) (n : ℕ) :
    h.decode ((pushRun handlers key kind run (h.encode ((h.decode records).drop n))).map
      RetryEntry.record) = (h.decode records).drop n := by
  rw [decode_pushRun hf codec]
  unfold Registered.decode
  rw [hm]
  exact m.reduce_drop_reduce _ n

/-- **A detour through retry hands over the same events**: the entries of a reduced run are handled as
the run itself, and those of a remainder as what the failed chunk left of the run. -/
theorem handleRun_detour (hm : h.algebra = m.algebra) (hf : handlers.find run.tag = some h)
    (codec : h.Codec) (key : UInt64) (kind : StageKind) (records : List (RunRecord P)) :
    (h.decode ((pushRun handlers key kind run (handlers.reduceRun run.tag records)).map
        RetryEntry.record) = h.decode records ∧
      handlers.handleRun run.tag ((pushRun handlers key kind run
        (handlers.reduceRun run.tag records)).map RetryEntry.record) =
          handlers.handleRun run.tag records) ∧
      ∀ t error remainder, handlers.handleRun run.tag records t (some (.failed error remainder)) →
        ∃ pre c k, t = pre ++ [c] ∧ c.result = some (.error ⟨.retryable, error⟩) ∧
          settledEvents pre = ((h.decode records).take k).map h.observe ∧
            h.decode ((pushRun handlers key kind run remainder).map RetryEntry.record) =
              (h.decode records).drop k := by
  have hreduced : handlers.reduceRun run.tag records = h.encode (h.decode records) := by
    rw [HandlerList.reduceRun_eq, hf]
  have hhandle : ∀ run', handlers.handleRun run.tag run' = h.handleEvents run' := fun run' => by
    rw [HandlerList.handleRun_eq, hf]
  have hwhole : h.decode ((pushRun handlers key kind run (handlers.reduceRun run.tag records)).map
      RetryEntry.record) = h.decode records := by
    rw [hreduced]
    exact decode_detour hm hf codec key kind records 0
  refine ⟨⟨hwhole, ?_⟩, fun t error remainder ht => ?_⟩
  · rw [hhandle, hhandle]
    exact Registered.handleEvents_congr hwhole
  · rw [hhandle] at ht
    obtain ⟨pre, c, hsplit, hres, -, hpre, rfl⟩ := (Chunks.tiled_loop ht).failed error remainder rfl
    exact ⟨pre, c, _, hsplit, hres, hpre, decode_detour hm hf codec key kind records _⟩

/-- A run of three numbers of which one is in twice, and a record of another type. -/
theorem handleRun_detour_plain :
    (Registered.plain ⟨1⟩ (.idempotentCommutative natOrd)).decode ((pushRun
        (.new (Registered.plain ⟨1⟩ (.idempotentCommutative natOrd))) 5 .head ⟨⟨1⟩, 0, 4⟩ [1, 3]).map
          RetryEntry.record) = ([1, 3] : List ℕ) :=
  (handleRun_detour (m := .idempotentCommutative natOrd) rfl rfl (fun event => ⟨event, rfl, rfl⟩) 5 .head
    [⟨3, .idempotentCommutative⟩, ⟨1, .idempotentCommutative⟩, ⟨3, .idempotentCommutative⟩,
      ⟨2, .commutative⟩]).1.1

end Detour

end Wakuwaku.Iggy.Consumer
