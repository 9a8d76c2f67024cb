import Wakuwaku.Iggy.Partition.Fences
import Wakuwaku.Iggy.Consumer.Account
import Wakuwaku.Iggy.Consumer.Traced

/-! # The pending records of a key

While a key has records in the retry partition, its later batches are diverted there too (`Pending`).
Planning the pending records keeps the order of the main log, although the written orderings keep a
fence only as the first event of a head run or the last event of a tail run: every event that was a
fence is written as a `Release`, or behind an `Acquire` of its type (`Kept`). -/

namespace Wakuwaku.Iggy.Consumer

open Wakuwaku.Iggy.Events Wakuwaku.Iggy.Partition Wakuwaku.Iggy.Partition.Fences
open Wakuwaku.Iggy.Consumer.Account

variable {P O : Type}

/-! ### What is written for a key -/

/-- A log by offsets, in which every record stands for itself. -/
def Numbered (log : ℕ → Option (ParsedRecord (Traced P))) : Prop :=
  ∀ a r, log a = some r → r.offset = a ∧ r.payload.2 = [a]

/-- A batch of which a key is written to the retry partition: after a failure, or diverted. -/
structure Write (P : Type) where
  batch : List (ParsedRecord (Traced P))
  key : KeyPlan UInt64
  failure : Option (KeyFailure (Traced P))

def Write.plan (w : Write P) : Plan UInt64 := Plan.new (planRecords w.batch)

def Write.entries (handlers : HandlerList (Traced P) (Traced O)) (w : Write P) :
    List (RetryEntry (Traced P)) :=
  encodeKey handlers w.plan w.key w.batch w.failure

/-- The batch holds records of the log from `start` to `stop`, and some of `key`. -/
structure Write.From (log : ℕ → Option (ParsedRecord (Traced P))) (key : UInt64) (start stop : ℕ)
    (w : Write P) : Prop where
  le : start ≤ stop
  sorted : w.batch.Pairwise (·.offset < ·.offset)
  mem : ∀ r ∈ w.batch, log r.offset = some r ∧ start ≤ r.offset ∧ r.offset < stop
  key_mem : w.key ∈ w.plan.keys
  key_eq : w.key.key = key

/-- What the planner needs of entries, once they are polled again. -/
def replanned (entries : List (RetryEntry P)) : List (PlanRecord UInt64) :=
  entries.map fun e => ⟨e.headers.key, e.headers.tag, e.headers.properties.atomicLevel⟩

/-- The pending records of a key, with what was written and all pending records so far: a batch of the
key is executed and fails, later batches are diverted, and retry attempts take out whole runs of the
plan of what is pending. -/
inductive Pending (handlers : HandlerList (Traced P) (Traced O))
    (log : ℕ → Option (ParsedRecord (Traced P))) (key : UInt64) :
    List (Write P) → ℕ → List (List (RetryEntry (Traced P))) → List (RetryEntry (Traced P)) → Prop where
  | none : Pending handlers log key [] 0 [] []
  | failed {writes start stop reached w t report} (h : Pending handlers log key writes start reached [])
    (hw : w.From log key start stop)
    (he : executeKey handlers w.plan w.key w.batch t (some report))
    (hf : report.failure = w.failure) (hs : w.failure.isSome) :
    Pending handlers log key (writes ++ [w]) stop (reached ++ [w.entries handlers])
      (w.entries handlers)
  | diverted {writes start stop reached w entries}
    (h : Pending handlers log key writes start reached entries)
    (hw : w.From log key start stop) (hf : w.failure = .none) :
    Pending handlers log key (writes ++ [w]) stop (reached ++ [entries ++ w.entries handlers])
      (entries ++ w.entries handlers)
  | retried {writes stop reached entries gone}
    (h : Pending handlers log key writes stop reached entries)
    (hg : RunsOf (Plan.new (replanned entries)) gone) :
    Pending handlers log key writes stop (reached ++ [without entries gone]) (without entries gone)

/-! ### What holds of pending records -/

section Kept

variable (log : ℕ → Option (ParsedRecord (Traced P)))

/-- Every event that was a fence still orders the key. -/
def KeptFences (entries : List (RetryEntry (Traced P))) : Prop :=
  ∀ p e, entries[p]? = some e → ∀ a ∈ e.payload.2, ∀ r, log a = some r →
    r.headers.properties.atomicLevel ≠ .relaxed → Fenced (replanned entries) p

/-- Entries of `key` stand for records of the log from `start` to `stop`; their order keeps `must`, and
the fences are kept. -/
structure Kept (key : UInt64) (must : EventHeaders → EventHeaders → Prop) (start stop : ℕ)
    (entries : List (RetryEntry (Traced P))) : Prop where
  key_eq : ∀ e ∈ entries, e.headers.key = key
  stands : ∀ e ∈ entries, ∀ a ∈ e.payload.2, start ≤ a ∧ a < stop ∧
    ∃ r, log a = some r ∧ r.headers.tag = e.headers.tag
  ordered : entries.Pairwise fun e e' => ∀ a ∈ e.payload.2, ∀ b ∈ e'.payload.2, b < a →
    ∀ x y, log b = some x → log a = some y → ¬ must x.headers y.headers
  fences : KeptFences log entries

variable {log} {key : UInt64} {must : EventHeaders → EventHeaders → Prop} {start middle stop : ℕ}
  {entries entries' : List (RetryEntry (Traced P))}

theorem getElem?_replanned {p : ℕ} {e : RetryEntry P} {entries : List (RetryEntry P)}
    (h : entries[p]? = some e) : (replanned entries)[p]? =
      some ⟨e.headers.key, e.headers.tag, e.headers.properties.atomicLevel⟩ := by
  rw [replanned, List.getElem?_map, h]
  rfl

theorem KeptFences.append (h : KeptFences log entries) (h' : KeptFences log entries') :
    KeptFences log (entries ++ entries') := by
  have hmap : replanned (entries ++ entries') = replanned entries ++ replanned entries' :=
    List.map_append
  intro p e hp a ha r hr hne
  rw [hmap]
  rcases Nat.lt_or_ge p entries.length with hlt | hge
  · rw [List.getElem?_append_left hlt] at hp
    simpa using (h p e hp a ha r hr hne).append [] (replanned entries')
  · rw [List.getElem?_append_right hge] at hp
    have := (h' _ e hp a ha r hr hne).append (replanned entries) []
    rwa [List.append_nil, replanned, List.length_map, Nat.add_sub_cancel' hge] at this

theorem keptFences_flatMap {α : Type} {f : α → List (RetryEntry (Traced P))} {l : List α}
    (h : ∀ a ∈ l, KeptFences log (f a)) : KeptFences log (l.flatMap f) := by
  induction l with
  | nil => exact fun p e hp => by simp at hp
  | cons a l ih =>
    rw [List.flatMap_cons]
    exact (h a List.mem_cons_self).append (ih fun b hb => h b (List.mem_cons_of_mem _ hb))

/-- Later records of the log are written behind. -/
theorem Kept.append (h : Kept log key must start middle entries)
    (h' : Kept log key must middle stop entries') (hle : start ≤ middle) (hle' : middle ≤ stop) :
    Kept log key must start stop (entries ++ entries') where
  key_eq e he := (List.mem_append.mp he).elim (h.key_eq e) (h'.key_eq e)
  stands e he a ha := by
    rcases List.mem_append.mp he with he | he
    · obtain ⟨h1, h2, h3⟩ := h.stands e he a ha
      exact ⟨h1, by omega, h3⟩
    · obtain ⟨h1, h2, h3⟩ := h'.stands e he a ha
      exact ⟨by omega, h2, h3⟩
  ordered := by
    refine List.pairwise_append.mpr ⟨h.ordered, h'.ordered, fun e he e' he' a ha b hb hlt => ?_⟩
    have h1 := (h.stands e he a ha).2.1
    have h2 := (h'.stands e' he' b hb).1
    omega
  fences := h.fences.append h'.fences

/-- Taking out whole runs keeps what holds. -/
theorem Kept.without {gone : List ℕ} (h : Kept log key must start stop entries)
    (hg : RunsOf (Plan.new (replanned entries)) gone) :
    Kept log key must start stop (without entries gone) where
  key_eq e he := h.key_eq e ((without_sublist _ _).subset he)
  stands e he := h.stands e ((without_sublist _ _).subset he)
  ordered := h.ordered.sublist (without_sublist _ _)
  fences := by
    intro p' e hp' a ha r hr hne
    obtain ⟨p, hp, he⟩ := exists_kept hp'
    have hkept : (kept (replanned entries) gone)[p']? = some p := by
      rw [← hp, kept, kept, replanned, List.length_map]
    have := (h.fences p e he a ha r hr hne).without hg hkept
    rwa [replanned, map_without]

/-- **Planning what is kept keeps `must`.** -/
theorem Kept.precedes (h : Kept log key must start stop entries)
    (hmust : ∀ x y, must x y → x.tag = y.tag ∨ x.properties.atomicLevel ≠ .relaxed ∨
      y.properties.atomicLevel ≠ .relaxed) {i j : ℕ} {e e' : RetryEntry (Traced P)}
    (hi : entries[i]? = some e) (hj : entries[j]? = some e') {a b : ℕ} (ha : a ∈ e.payload.2)
    (hb : b ∈ e'.payload.2) (hab : a < b) {x y : ParsedRecord (Traced P)} (hx : log a = some x)
    (hy : log b = some y) (hm : must x.headers y.headers) :
    i = j ∨ i < j ∧ ∀ kp ∈ (Plan.new (replanned entries)).keys, kp.key = key →
      ∀ p q, (Plan.new (replanned entries)).Placed kp i p →
        (Plan.new (replanned entries)).Placed kp j q → p.Precedes q := by
  have he := List.mem_of_getElem? hi
  have he' := List.mem_of_getElem? hj
  rcases Nat.lt_trichotomy i j with hlt | heq | hgt
  · refine Or.inr ⟨hlt, fun kp hkp hk p q hp hq => ?_⟩
    refine precedes_of_fenced hkp (getElem?_replanned hi) (getElem?_replanned hj) hlt
      ((h.key_eq e he).trans hk.symm) ((h.key_eq e' he').trans hk.symm) ?_ hp hq
    obtain ⟨-, -, x', hx', htx⟩ := h.stands e he a ha
    obtain ⟨-, -, y', hy', hty⟩ := h.stands e' he' b hb
    obtain rfl := Option.some.inj (hx.symm.trans hx')
    obtain rfl := Option.some.inj (hy.symm.trans hy')
    rcases hmust _ _ hm with htag | hne | hne
    · exact Or.inl (htx.symm.trans (htag.trans hty))
    · exact Or.inr (Or.inl (h.fences i e hi a ha _ hx hne))
    · exact Or.inr (Or.inr (h.fences j e' hj b hb _ hy hne))
  · exact Or.inl heq
  · obtain ⟨hlti, rfl⟩ := List.getElem?_eq_some_iff.mp hi
    obtain ⟨hltj, rfl⟩ := List.getElem?_eq_some_iff.mp hj
    have := List.pairwise_iff_getElem.mp h.ordered j i hltj hlti hgt b hb a ha hab x y hx hy
    exact absurd hm this

end Kept

/-! ### What one batch writes -/

/-- The events of a run, before they are reduced. -/
def Write.events (w : Write P) (h : Registered P O) (work : Work) : List (Traced h.Target) :=
  Traced.decoded h (runRecords w.plan w.batch work.run)

/-- What is written for a run. -/
def Write.left (handlers : HandlerList (Traced P) (Traced O)) (w : Write P) (work : Work) :
    List (Traced P) :=
  unfinished handlers w.plan w.batch w.failure work

section Write

variable {handlers : HandlerList P O} {marking : handlers.Marking}
  {log : ℕ → Option (ParsedRecord (Traced P))} {key : UInt64} {start stop : ℕ} {w : Write P}

theorem getElem?_pushRun {handlers : HandlerList P O} {kind : StageKind} {run : Run}
    {payloads : List P} {p : ℕ} {e : RetryEntry P}
    (h : (pushRun handlers key kind run payloads)[p]? = some e) :
    p < (pushRun handlers key kind run payloads).length ∧ payloads[p]? = some e.payload ∧
      e.headers.key = key ∧ e.headers.tag = run.tag ∧ e.headers.properties.atomicLevel =
        if kind = .head ∧ p = 0 then .acquire
        else if kind = .tail ∧ p + 1 = payloads.length then .release else .relaxed := by
  have hlt := (List.getElem?_eq_some_iff.mp h).1
  refine ⟨hlt, ?_⟩
  unfold pushRun at h
  cases ha : handlers.associativity run.tag with
  | none => rw [ha] at h; simp at h
  | some associativity =>
    rw [ha] at h
    simp only [List.getElem?_map, Option.map_eq_some_iff] at h
    obtain ⟨⟨payload, ordering⟩, hz, rfl⟩ := h
    obtain ⟨h1, h2⟩ := List.getElem?_zip_eq_some.mp hz
    have h3 : (stageOrderings kind payloads.length)[p]? = some ordering := h2
    rw [stageOrderings, List.getElem?_map, Option.map_eq_some_iff] at h3
    obtain ⟨i, hi, rfl⟩ := h3
    obtain ⟨_, rfl⟩ := List.getElem?_eq_some_iff.mp hi
    exact ⟨h1, rfl, rfl, by simp⟩

/-- The entries of a head run follow an `Acquire`. -/
theorem headed_pushRun {handlers : HandlerList P O} {run : Run} {payloads : List P} {p : ℕ}
    (hp : p < (pushRun handlers key .head run payloads).length) :
    Headed (replanned (pushRun handlers key .head run payloads)) p := by
  have hget : ∀ k < (pushRun handlers key .head run payloads).length, ∃ r,
      (replanned (pushRun handlers key .head run payloads))[k]? = some r ∧ r.key = key ∧
        r.tag = run.tag ∧ r.ordering = if k = 0 then .acquire else .relaxed := by
    intro k hk
    have he := List.getElem?_eq_getElem hk
    obtain ⟨-, -, h1, h2, h3⟩ := getElem?_pushRun he
    exact ⟨_, getElem?_replanned he, h1, h2, by simpa using h3⟩
  obtain ⟨r, hr, hkey, htag, ho⟩ := hget 0 (by omega)
  refine ⟨0, p, r, by omega, hr, by simpa using ho, fun k hk hkp => ?_⟩
  obtain ⟨r', h1, h2, h3, h4⟩ := hget k (by omega)
  exact ⟨r', h1, h2.trans hkey.symm, h3.trans htag.symm, by rw [h4, if_neg (by omega)]⟩

/-! ### The offsets of a run -/

variable (hlog : Numbered log) (hw : w.From log key start stop)
include hlog hw

theorem offsets_runRecords (run : Run) :
    (runRecords w.plan w.batch run).flatMap (·.payload.2) =
      (w.plan.records run).filterMap fun i => (w.batch[i]?).map (·.offset) := by
  rw [runRecords]
  induction w.plan.records run with
  | nil => rfl
  | cons i l ih =>
    cases hi : w.batch[i]? with
    | none => simpa [hi] using ih
    | some r =>
      obtain ⟨hr, h2⟩ := hlog _ _ (hw.mem r (List.mem_of_getElem? hi)).1
      simpa [hi, h2] using ih

/-- An offset of a run is that of one of its records. -/
theorem record_of_offset {work : Work} {a : ℕ}
    (ha : a ∈ (runRecords w.plan w.batch work.run).flatMap (·.payload.2)) :
    ∃ i ∈ w.plan.records work.run, ∃ r, w.batch[i]? = some r ∧ r.offset = a ∧ log a = some r := by
  rw [offsets_runRecords hlog hw, List.mem_filterMap] at ha
  obtain ⟨i, hi, h⟩ := ha
  obtain ⟨r, hr, rfl⟩ := Option.map_eq_some_iff.mp h
  exact ⟨i, hi, r, hr, rfl, (hw.mem r (List.mem_of_getElem? hr)).1⟩

omit hlog in
/-- The batch is in log order. -/
theorem index_lt_iff {i j : ℕ} {x y : ParsedRecord (Traced P)} (hi : w.batch[i]? = some x)
    (hj : w.batch[j]? = some y) : i < j ↔ x.offset < y.offset := by
  obtain ⟨hi', rfl⟩ := List.getElem?_eq_some_iff.mp hi
  obtain ⟨hj', rfl⟩ := List.getElem?_eq_some_iff.mp hj
  have h := List.pairwise_iff_getElem.mp hw.sorted
  rcases Nat.lt_trichotomy i j with hlt | rfl | hgt
  · simpa [hlt] using h i j hi' hj' hlt
  · simp
  · have := h j i hj' hi' hgt
    omega

/-- An event of a run stands for one record. -/
theorem offset_of_event {h : Registered P O} {work : Work} {v : Traced h.Target}
    (hv : v ∈ w.events h work) : ∃ a, v.2 = [a] := by
  obtain ⟨record, hrec, hv⟩ := List.mem_filterMap.mp hv
  obtain ⟨_, -, rfl⟩ := Option.map_eq_some_iff.mp hv
  obtain ⟨i, -, hi⟩ := List.mem_filterMap.mp hrec
  obtain ⟨r, hr, rfl⟩ := Option.map_eq_some_iff.mp hi
  exact ⟨r.offset, (hlog _ _ (hw.mem r (List.mem_of_getElem? hr)).1).2⟩

/-- The offsets of a run are in log order. -/
theorem pairwise_offsets {work : Work} (hwork : work ∈ workOf w.plan w.key) :
    ((runRecords w.plan w.batch work.run).flatMap (·.payload.2)).Pairwise (· < ·) := by
  obtain ⟨segment, hseg, ha⟩ := ranked_of_workOf hwork
  rw [offsets_runRecords hlog hw, List.pairwise_filterMap]
  refine (pairwise_records hw.key_mem hseg ha).imp fun hlt a ha b hb => ?_
  obtain ⟨x, hx, rfl⟩ := Option.map_eq_some_iff.mp ha
  obtain ⟨y, hy, rfl⟩ := Option.map_eq_some_iff.mp hb
  exact (index_lt_iff hw hx hy).mp hlt

/-! ### The order of what is written -/

section Left

variable (hr : Reported (handlers.traced marking) w.plan w.key w.batch w.failure)
include hr

omit hlog hw in
/-- What is left of a run is the end of its encoded reduction. -/
theorem left_suffix {work : Work} (hwork : work ∈ workOf w.plan w.key) :
    w.left (handlers.traced marking) work <:+
      match handlers.findMarked work.run.tag marking with
      | some a => Traced.encoded a.1 ((a.2.marker.traced a.2.sort).reduce (w.events a.1 work))
      | none => [] := by
  have h := unfinished_suffix hr hwork
  rwa [reduce, Traced.reduceRun_traced] at h

/-- What is left of a run stands for records of the run. -/
theorem record_of_left {work : Work} (hwork : work ∈ workOf w.plan w.key) {p : Traced P}
    (hp : p ∈ w.left (handlers.traced marking) work) {a : ℕ} (ha : a ∈ p.2) :
    ∃ i ∈ w.plan.records work.run, ∃ r, w.batch[i]? = some r ∧ r.offset = a ∧ log a = some r := by
  have hmem := (left_suffix hr hwork).subset hp
  cases hf : handlers.findMarked work.run.tag marking with
  | none => simp [hf] at hmem
  | some m =>
    simp only [hf] at hmem
    obtain ⟨e, he, heq⟩ := Traced.exists_of_mem_encoded hmem
    have hoff : a ∈ ((m.2.marker.traced m.2.sort).reduce (w.events m.1 work)).flatMap Prod.snd :=
      List.mem_flatMap.mpr ⟨e, he, heq ▸ ha⟩
    rw [(Partition.Traced.perm_reduce m.2.sorts _).mem_iff] at hoff
    exact record_of_offset hlog hw ((Traced.sublist_decoded _).subset hoff)

/-- **The order of what is left of a run**: in log order, but for events that their type sorts. -/
theorem pairwise_left {work : Work} (hwork : work ∈ workOf w.plan w.key) :
    (w.left (handlers.traced marking) work).Pairwise fun p p' => p'.2 ≠ [] ∧
      ∀ a ∈ p.2, ∀ b ∈ p'.2, ∃ m, handlers.findMarked work.run.tag marking = some m ∧
        ((a < b ∧ ∀ v u, ¬ m.2.marker.Less v u) ∨ ∃ v ∈ w.events m.1 work, ∃ u ∈ w.events m.1 work,
          a ∈ v.2 ∧ b ∈ u.2 ∧ m.2.marker.Less v.1 u.1) := by
  refine List.Pairwise.sublist (left_suffix hr hwork).sublist ?_
  cases hf : handlers.findMarked work.run.tag marking with
  | none => exact .nil
  | some m =>
    have hpw : ((w.events m.1 work).flatMap Prod.snd).Pairwise (· < ·) :=
      (pairwise_offsets hlog hw hwork).sublist (Traced.sublist_decoded _)
    have hne : ∀ v ∈ w.events m.1 work, v.2 ≠ [] := by
      intro v hv
      obtain ⟨a, ha⟩ := offset_of_event hlog hw hv
      simp [ha]
    have hpair := Partition.Traced.pairwise_reduce m.2.sorts hpw
    refine Traced.pairwise_encoded (r := fun s s' => s' ≠ [] ∧ ∀ a ∈ s, ∀ b ∈ s', ∃ m',
      some m = some m' ∧ ((a < b ∧ ∀ v u, ¬ m'.2.marker.Less v u) ∨ ∃ v ∈ w.events m'.1 work,
        ∃ u ∈ w.events m'.1 work, a ∈ v.2 ∧ b ∈ u.2 ∧ m'.2.marker.Less v.1 u.1))
      (hpair.imp_of_mem fun {e e'} he he' h => ?_)
    exact ⟨Partition.Traced.ne_nil_reduce m.2.sorts hne e' he', fun a ha b hb => ⟨m, rfl, h a ha b hb⟩⟩

end Left

omit hlog in
/-- Of two runs, the records of the first come first, or do not have to. -/
theorem pairwise_work : (workOf w.plan w.key).Pairwise fun work work' =>
    ∀ i ∈ w.plan.records work.run, ∀ j ∈ w.plan.records work'.run, ∀ x y, w.batch[i]? = some x →
      w.batch[j]? = some y → x.headers.key = y.headers.key → y.offset < x.offset →
        x.headers.tag ≠ y.headers.tag ∧ x.headers.properties.atomicLevel = .relaxed ∧
          y.headers.properties.atomicLevel = .relaxed := by
  have hsub : ((workOf w.plan w.key).flatMap fun work => w.plan.records work.run).Sublist
      w.plan.order := by
    have horder : (w.plan.keys.flatMap fun kp => (w.plan.segmentsOf kp).flatMap fun segment =>
        (w.plan.ranked segment).flatMap fun a => w.plan.records a.2) = w.plan.order :=
      Order.flatMap_keys (Segments.ok_assignSegments (planRecords w.batch))
        (Build.built_new (planRecords w.batch))
    rw [workOf, flatMap_workFrom, ← horder, List.flatMap_def]
    exact List.sublist_flatten_of_mem (List.mem_map.mpr ⟨_, hw.key_mem, rfl⟩)
  have h := (Order.order_swaps (planRecords w.batch)).2.sublist hsub
  refine (List.pairwise_flatMap.mp h).2.imp fun hp i hi j hj x y hx hy hkey hlt => ?_
  have hget : ∀ {i : ℕ} {x : ParsedRecord (Traced P)}, w.batch[i]? = some x →
      (planRecords w.batch)[i]? = some ⟨x.headers.key, x.headers.tag, x.headers.properties.atomicLevel⟩ :=
    fun hx => by rw [planRecords, List.getElem?_map, hx]; rfl
  exact hp i hi j hj ((index_lt_iff hw hy hx).mpr hlt) _ _ (hget hx) (hget hy) hkey

omit hlog in
/-- The records of a run are of the key and of the type of the run. -/
theorem headers_of_work {work : Work} (hwork : work ∈ workOf w.plan w.key) {i : ℕ}
    (hi : i ∈ w.plan.records work.run) {r : ParsedRecord (Traced P)} (hr : w.batch[i]? = some r) :
    r.headers.key = key ∧ r.headers.tag = work.run.tag := by
  have hmem := (perm_workOf hw.key_mem).mem_iff.mp (List.mem_flatMap.mpr ⟨work, hwork, hi⟩)
  have hkey := (List.mem_filter.mp hmem).2
  obtain ⟨segment, hseg, ha⟩ := ranked_of_workOf hwork
  obtain ⟨-, htag⟩ := Order.records_of_ranked (Segments.ok_assignSegments (planRecords w.batch))
    (Build.built_new (planRecords w.batch)) hw.key_mem hseg ha
  obtain ⟨r', hr', ht⟩ := htag i hi
  rw [planRecords, List.getElem?_map, hr] at hkey hr'
  obtain rfl := Option.some.inj hr'
  exact ⟨by simpa [hw.key_eq] using hkey, ht⟩

end Write

section Kept

variable {handlers : HandlerList P O} {marking : handlers.Marking}
  {log : ℕ → Option (ParsedRecord (Traced P))} {key : UInt64} {start stop : ℕ} {w : Write P}
  {must : EventHeaders → EventHeaders → Prop}

/-- Sorting what is written of a run moves no event behind one that must come first, and none behind
a `Release`. -/
def Write.Fits (handlers : HandlerList P O) (marking : handlers.Marking)
    (log : ℕ → Option (ParsedRecord (Traced P))) (must : EventHeaders → EventHeaders → Prop)
    (w : Write P) : Prop :=
  ∀ work ∈ workOf w.plan w.key, ∀ m, handlers.findMarked work.run.tag marking = some m →
    ∀ v ∈ w.events m.1 work, ∀ u ∈ w.events m.1 work, m.2.marker.Less v.1 u.1 →
      ∀ a ∈ v.2, ∀ b ∈ u.2, ∀ p ∈ w.left (handlers.traced marking) work,
        ∀ p' ∈ w.left (handlers.traced marking) work, a ∈ p.2 → b ∈ p'.2 →
          ∀ x y, log b = some x → log a = some y →
            (b < a → ¬ must x.headers y.headers) ∧ y.headers.properties.atomicLevel ≠ .release

variable (hlog : Numbered log) (hw : w.From log key start stop)
  (hr : Reported (handlers.traced marking) w.plan w.key w.batch w.failure)
include hlog hw hr

/-- The fences of a run are kept. -/
theorem keptFences_work (hfit : w.Fits handlers marking log must) {work : Work}
    (hwork : work ∈ workOf w.plan w.key) :
    KeptFences log (pushRun (handlers.traced marking) key work.stage.kind work.run
      (w.left (handlers.traced marking) work)) := by
  intro p e hp a ha r hra hne
  obtain ⟨hplt, hpayload, hkey, htag, ho⟩ := getElem?_pushRun hp
  have hpm := List.mem_of_getElem? hpayload
  obtain ⟨i, hi, r', hir, -, hra'⟩ := record_of_left hlog hw hr hwork hpm ha
  obtain rfl := Option.some.inj (hra.symm.trans hra')
  obtain ⟨segment, hseg, hranked⟩ := ranked_of_workOf hwork
  have hget : ∀ {i : ℕ} {x : ParsedRecord (Traced P)}, w.batch[i]? = some x →
      (planRecords w.batch)[i]? = some ⟨x.headers.key, x.headers.tag, x.headers.properties.atomicLevel⟩ :=
    fun hx => by rw [planRecords, List.getElem?_map, hx]; rfl
  obtain ⟨hbody, htail⟩ := rank_of_fence hw.key_mem hseg hranked hi (hget hir) hne
  cases hk : work.stage.kind with
  | head =>
    rw [hk] at hplt
    exact Or.inr (headed_pushRun hplt)
  | body =>
    rw [hk] at hbody
    exact absurd rfl hbody
  | tail =>
    rw [hk] at htail ho hp
    have hrel : r.headers.properties.atomicLevel = .release := htail rfl
    obtain ⟨hlen, hpe⟩ := List.getElem?_eq_some_iff.mp hpayload
    -- the `Release` is in the last entry of the run
    have hlast : p + 1 = (w.left (handlers.traced marking) work).length := by
      by_contra hn
      have hp' : p + 1 < (w.left (handlers.traced marking) work).length := by omega
      obtain ⟨hnil, hor⟩ := List.pairwise_iff_getElem.mp (pairwise_left hlog hw hr hwork) p (p + 1)
        hlen hp' (by omega)
      obtain ⟨b, hb⟩ := List.exists_mem_of_ne_nil _ hnil
      obtain ⟨j, hj, y, hjy, rfl, hrb⟩ := record_of_left hlog hw hr hwork (List.getElem_mem hp') hb
      obtain ⟨m, hm, ⟨hlt, -⟩ | ⟨v, hv, u, hu, hav, hbu, hless⟩⟩ := hor a (hpe ▸ ha) _ hb
      · have hij := (index_lt_iff hw hir hjy).mpr (by rwa [(hlog _ _ hra).1])
        exact (fence_of_run hw.key_mem hseg hranked hi hj (hget hir) (hget hjy) hij).1 hrel
      · exact (hfit work hwork m hm v hv u hu hless a hav _ hbu _ hpm _ (List.getElem_mem hp') ha hb
          _ _ hrb hra).2 hrel
    refine Or.inl ⟨_, getElem?_replanned hp, ?_⟩
    rw [ho, if_neg (by simp), if_pos ⟨rfl, hlast⟩]
    simp

/-- **What one batch writes is kept.** -/
theorem kept_write (hmust : ∀ x y, must x y → x.tag = y.tag ∨ x.properties.atomicLevel ≠ .relaxed ∨
      y.properties.atomicLevel ≠ .relaxed) (hfit : w.Fits handlers marking log must) :
    Kept log key must start stop (w.entries (handlers.traced marking)) := by
  have hentries : w.entries (handlers.traced marking) = (workOf w.plan w.key).flatMap fun work =>
      pushRun (handlers.traced marking) key work.stage.kind work.run
        (w.left (handlers.traced marking) work) := by
    rw [Write.entries, encodeKey_unfinished hr, hw.key_eq]
    rfl
  rw [hentries]
  have hleft : ∀ {work : Work} {e : RetryEntry (Traced P)},
      e ∈ pushRun (handlers.traced marking) key work.stage.kind work.run
        (w.left (handlers.traced marking) work) →
        e.headers.key = key ∧ e.headers.tag = work.run.tag ∧
          e.payload ∈ w.left (handlers.traced marking) work := by
    intro work e he
    obtain ⟨p, hp⟩ := List.getElem?_of_mem he
    obtain ⟨-, hpayload, hkey, htag, -⟩ := getElem?_pushRun hp
    exact ⟨hkey, htag, List.mem_of_getElem? hpayload⟩
  refine ⟨fun e he => ?_, fun e he a ha => ?_, ?_,
    keptFences_flatMap fun work hwork => keptFences_work hlog hw hr hfit hwork⟩
  · obtain ⟨work, -, he⟩ := List.mem_flatMap.mp he
    exact (hleft he).1
  · obtain ⟨work, hwork, he⟩ := List.mem_flatMap.mp he
    obtain ⟨-, htag, hpayload⟩ := hleft he
    obtain ⟨i, hi, r, hir, rfl, hra⟩ := record_of_left hlog hw hr hwork hpayload ha
    obtain ⟨-, h1, h2⟩ := hw.mem r (List.mem_of_getElem? hir)
    exact ⟨h1, h2, r, hra, (headers_of_work hw hwork hi hir).2.trans htag.symm⟩
  · refine List.pairwise_flatMap.mpr ⟨fun work hwork => ?_, (pairwise_work hw).imp_of_mem ?_⟩
    · have hpw := (pairwise_left hlog hw hr hwork).sublist
        (sublist_pushRun (handlers.traced marking) key work.stage.kind work.run _)
      refine (List.pairwise_map.mp hpw).imp_of_mem fun {e e'} he he' h a ha b hb hlt x y hx hy => ?_
      obtain ⟨m, hm, ⟨hab, -⟩ | ⟨v, hv, u, hu, hav, hbu, hless⟩⟩ := h.2 a ha b hb
      · omega
      · exact (hfit work hwork m hm v hv u hu hless a hav b hbu _ (hleft he).2.2 _ (hleft he').2.2 ha hb
          x y hx hy).1 hlt
    · intro work work' hwork hwork' h e he e' he' a ha b hb hlt x y hx hy hm
      obtain ⟨i, hi, r, hir, rfl, hra⟩ := record_of_left hlog hw hr hwork (hleft he).2.2 ha
      obtain ⟨j, hj, r', hjr, rfl, hrb⟩ := record_of_left hlog hw hr hwork' (hleft he').2.2 hb
      obtain rfl := Option.some.inj (hy.symm.trans hra)
      obtain rfl := Option.some.inj (hx.symm.trans hrb)
      have hkey := (headers_of_work hw hwork hi hir).1.trans (headers_of_work hw hwork' hj hjr).1.symm
      obtain ⟨h1, h2, h3⟩ := h i hi j hj _ _ hir hjr hkey hlt
      rcases hmust _ _ hm with hc | hc | hc
      · exact h1 hc.symm
      · exact hc h3
      · exact hc h2

end Kept

section Pending

variable {handlers : HandlerList P O} {marking : handlers.Marking}
  {log : ℕ → Option (ParsedRecord (Traced P))} {key : UInt64} {writes : List (Write P)} {stop : ℕ}
  {reached : List (List (RetryEntry (Traced P)))} {entries : List (RetryEntry (Traced P))}
  (h : Pending (handlers.traced marking) log key writes stop reached entries)
include h

/-- What was written is a failure that was reported, or a diverted batch, and it was pending. -/
theorem Pending.exists_write {w : Write P} (hw : w ∈ writes) : ∃ start stop pre,
    w.From log key start stop ∧ Reported (handlers.traced marking) w.plan w.key w.batch w.failure ∧
      pre ++ w.entries (handlers.traced marking) ∈ reached := by
  induction h with
  | none => cases hw
  | @failed writes start stop reached w' t report h hw' he hf hs ih =>
    rcases List.mem_append.mp hw with hw | hw
    · obtain ⟨start, stop, pre, h1, h2, h3⟩ := ih hw
      exact ⟨start, stop, pre, h1, h2, List.mem_append_left _ h3⟩
    · obtain rfl := List.mem_singleton.mp hw
      exact ⟨start, stop, [], hw', fun f hwf => ⟨t, report, he, hf.trans hwf⟩, by simp⟩
  | @diverted writes start stop reached w' entries h hw' hf ih =>
    rcases List.mem_append.mp hw with hw | hw
    · obtain ⟨start, stop, pre, h1, h2, h3⟩ := ih hw
      exact ⟨start, stop, pre, h1, h2, List.mem_append_left _ h3⟩
    · obtain rfl := List.mem_singleton.mp hw
      refine ⟨start, stop, entries, hw', ?_, by simp⟩
      rw [hf]
      exact fun f hwf => by cases hwf
  | @retried writes stop reached entries gone h hg ih =>
    obtain ⟨start, stop, pre, h1, h2, h3⟩ := ih hw
    exact ⟨start, stop, pre, h1, h2, List.mem_append_left _ h3⟩

/-- Whatever is pending was written. -/
theorem Pending.exists_written {e : RetryEntry (Traced P)} (he : e ∈ entries) :
    ∃ w ∈ writes, e ∈ w.entries (handlers.traced marking) := by
  induction h with
  | none => cases he
  | failed h hw' he' hf hs ih => exact ⟨_, by simp, he⟩
  | diverted h hw' hf ih =>
    rcases List.mem_append.mp he with he | he
    · obtain ⟨w, hw, he⟩ := ih he
      exact ⟨w, by simp [hw], he⟩
    · exact ⟨_, by simp, he⟩
  | retried h hg ih => exact ih ((without_sublist _ _).subset he)

/-- **Everything pending is kept**, if everything written fits. -/
theorem Pending.kept {must : EventHeaders → EventHeaders → Prop} (hlog : Numbered log)
    (hmust : ∀ x y, must x y → x.tag = y.tag ∨ x.properties.atomicLevel ≠ .relaxed ∨
      y.properties.atomicLevel ≠ .relaxed)
    (hfit : ∀ w ∈ writes, w.Fits handlers marking log must) :
    Kept log key must 0 stop entries ∧ ∀ s ∈ reached, ∃ stop, Kept log key must 0 stop s := by
  have hnil : ∀ stop, Kept log key must 0 stop [] := fun stop =>
    ⟨by simp, by simp, .nil, fun p e hp => by simp at hp⟩
  -- one more reached list
  have hsnoc : ∀ {reached : List (List (RetryEntry (Traced P)))} {s stop},
      (∀ s ∈ reached, ∃ stop, Kept log key must 0 stop s) → Kept log key must 0 stop s →
        ∀ s' ∈ reached ++ [s], ∃ stop, Kept log key must 0 stop s' := by
    intro reached s stop hreached hs s' hs'
    rcases List.mem_append.mp hs' with hs' | hs'
    · exact hreached s' hs'
    · exact ⟨stop, List.mem_singleton.mp hs' ▸ hs⟩
  induction h with
  | none => exact ⟨hnil 0, by simp⟩
  | @failed writes start stop reached w t report h hw he hf hs ih =>
    have hr : Reported (handlers.traced marking) w.plan w.key w.batch w.failure :=
      fun f hwf => ⟨t, report, he, hf.trans hwf⟩
    have hkept := kept_write hlog hw hr hmust (hfit w (by simp))
    have h' := (hnil start).append hkept (Nat.zero_le _) hw.le
    exact ⟨h', hsnoc (ih fun w' hw' => hfit w' (by simp [hw'])).2 h'⟩
  | @diverted writes start stop reached w entries h hw hf ih =>
    have hr : Reported (handlers.traced marking) w.plan w.key w.batch w.failure := by
      rw [hf]
      exact fun f hwf => by cases hwf
    obtain ⟨ih, hreached⟩ := ih fun w' hw' => hfit w' (by simp [hw'])
    have h' := ih.append (kept_write hlog hw hr hmust (hfit w (by simp))) (Nat.zero_le _) hw.le
    exact ⟨h', hsnoc hreached h'⟩
  | @retried writes stop reached entries gone h hg ih =>
    obtain ⟨ih, hreached⟩ := ih hfit
    exact ⟨ih.without hg, hsnoc hreached (ih.without hg)⟩

end Pending

end Wakuwaku.Iggy.Consumer
