import Wakuwaku.Iggy.Consumer.Handler

/-! # Tracing events to the records they come from

A traced event or payload carries the offsets of the records of the main log it stands for. Decoding
and encoding keep them, and a reduction that merges events merges their offsets. Erasing the offsets
gives the handlers as they are (`map_fst_reduce`, `map_fst_decode`, `map_fst_encode`), and no
reduction loses or doubles an offset (`perm_reduce`). -/

namespace Wakuwaku.Iggy.Partition

open Wakuwaku.Iggy.Events

/-- A value with the offsets of the records it stands for. -/
abbrev Traced (α : Type) : Type := α × List ℕ

variable {E : Type}

/-! ### Reductions -/

/-- `dedupAfter`, where a kept event takes over the offsets of the events it removes. -/
def tracedDedupAfter (eq : E → E → Bool) (last : Traced E) : List (Traced E) → List (Traced E)
  | [] => [last]
  | a :: rest =>
    if eq a.1 last.1 then tracedDedupAfter eq (last.1, last.2 ++ a.2) rest
    else last :: tracedDedupAfter eq a rest

def tracedDedup (eq : E → E → Bool) : List (Traced E) → List (Traced E)
  | [] => []
  | a :: rest => tracedDedupAfter eq a rest

/-- `sort` sorts traced events as `sortUnstable` sorts the events. -/
def OrdImpl.SortsTraced (ord : OrdImpl E) (sort : List (Traced E) → List (Traced E)) : Prop :=
  ∀ run, (sort run).Perm run ∧ (sort run).map Prod.fst = ord.sortUnstable (run.map Prod.fst)

/-- The algebra of a marker on traced events; `sort` is the sort of a marker that sorts. -/
def Marker.traced (m : Marker E) (sort : List (Traced E) → List (Traced E)) : Algebra (Traced E) :=
  match m with
  | .nonAssociative => ⟨.nonAssociative, id⟩
  | .commutative => ⟨.commutative, id⟩
  | .idempotent eq => ⟨.idempotent, tracedDedup eq.eq⟩
  | .idempotentCommutative ord => ⟨.idempotentCommutative, fun run => tracedDedup ord.eq (sort run)⟩
  | .associative combine =>
    ⟨.associative, foldRun fun a b => (combine a.1 b.1, a.2 ++ b.2)⟩

/-- `sort` is fit for the marker. -/
def Marker.Sorts (sort : List (Traced E) → List (Traced E)) : Marker E → Prop
  | .idempotentCommutative ord => OrdImpl.SortsTraced ord sort
  | _ => True

/-- The marker sorts, and puts `v` strictly before `w`. -/
def Marker.Less (m : Marker E) (v w : E) : Prop :=
  match m with
  | .idempotentCommutative ord => ord.le w v = false
  | _ => False

@[simp] theorem Marker.associativity_traced (m : Marker E) (sort : List (Traced E) → List (Traced E)) :
    (m.traced sort).associativity = m.algebra.associativity := by
  cases m <;> rfl

namespace Traced

variable {eq : E → E → Bool} {sort : List (Traced E) → List (Traced E)} {m : Marker E}

theorem map_fst_dedupAfter : ∀ (run : List (Traced E)) (last : Traced E),
    (tracedDedupAfter eq last run).map Prod.fst = last.1 :: dedupAfter eq last.1 (run.map Prod.fst)
  | [], _ => rfl
  | a :: rest, last => by
    rw [tracedDedupAfter, List.map_cons, dedupAfter]
    split_ifs
    · exact map_fst_dedupAfter rest _
    · rw [List.map_cons, map_fst_dedupAfter rest a]

theorem map_fst_dedup (run : List (Traced E)) :
    (tracedDedup eq run).map Prod.fst = dedup eq (run.map Prod.fst) := by
  cases run with
  | nil => rfl
  | cons a rest => exact map_fst_dedupAfter rest a

theorem flatMap_snd_dedupAfter : ∀ (run : List (Traced E)) (last : Traced E),
    (tracedDedupAfter eq last run).flatMap Prod.snd = last.2 ++ run.flatMap Prod.snd
  | [], last => by simp [tracedDedupAfter]
  | a :: rest, last => by
    rw [tracedDedupAfter, List.flatMap_cons]
    split_ifs
    · rw [flatMap_snd_dedupAfter rest, List.append_assoc]
    · rw [List.flatMap_cons, flatMap_snd_dedupAfter rest a]

theorem flatMap_snd_dedup (run : List (Traced E)) :
    (tracedDedup eq run).flatMap Prod.snd = run.flatMap Prod.snd := by
  cases run with
  | nil => rfl
  | cons a rest => exact flatMap_snd_dedupAfter rest a

theorem foldl_combine {combine : E → E → E} : ∀ (run : List (Traced E)) (a : Traced E),
    run.foldl (fun a b => (combine a.1 b.1, a.2 ++ b.2)) a =
      ((run.map Prod.fst).foldl combine a.1, a.2 ++ run.flatMap Prod.snd)
  | [], a => by simp
  | b :: rest, a => by
    rw [List.foldl_cons, foldl_combine rest]
    simp

/-- **Erasing the offsets** gives the reduction as it is. -/
theorem map_fst_reduce (hs : m.Sorts sort) (run : List (Traced E)) :
    ((m.traced sort).reduce run).map Prod.fst = m.algebra.reduce (run.map Prod.fst) := by
  cases m with
  | nonAssociative => rfl
  | commutative => rfl
  | idempotent eq => exact map_fst_dedup run
  | idempotentCommutative ord =>
    show (tracedDedup ord.eq (sort run)).map Prod.fst = dedup ord.eq (ord.sortUnstable _)
    rw [map_fst_dedup, (hs run).2]
  | associative combine =>
    cases run with
    | nil => rfl
    | cons a rest =>
      show [(rest.foldl _ a).1] = [(rest.map Prod.fst).foldl combine a.1]
      rw [foldl_combine]

/-- A reduction that does not sort keeps the offsets in order. -/
theorem flatMap_snd_reduce (hm : (m.traced sort).associativity ≠ .idempotentCommutative)
    (run : List (Traced E)) : ((m.traced sort).reduce run).flatMap Prod.snd = run.flatMap Prod.snd := by
  cases m with
  | nonAssociative => rfl
  | commutative => rfl
  | idempotent eq => exact flatMap_snd_dedup run
  | idempotentCommutative ord => exact absurd rfl hm
  | associative combine =>
    cases run with
    | nil => rfl
    | cons a rest =>
      show [rest.foldl _ a].flatMap Prod.snd = _
      rw [foldl_combine]
      simp

/-- **No reduction loses or doubles an offset.** -/
theorem perm_reduce (hs : m.Sorts sort) (run : List (Traced E)) :
    (((m.traced sort).reduce run).flatMap Prod.snd).Perm (run.flatMap Prod.snd) := by
  by_cases hm : (m.traced sort).associativity = .idempotentCommutative
  · cases m with
    | idempotentCommutative ord =>
      show ((tracedDedup ord.eq (sort run)).flatMap Prod.snd).Perm _
      rw [flatMap_snd_dedup]
      exact (hs run).1.flatMap_right _
    | nonAssociative => cases hm
    | commutative => cases hm
    | idempotent eq => cases hm
    | associative combine => cases hm
  · rw [flatMap_snd_reduce hm]

/-- A reduced event stands for at least one record. -/
theorem ne_nil_reduce (hs : m.Sorts sort) {run : List (Traced E)} (hrun : ∀ v ∈ run, v.2 ≠ []) :
    ∀ e ∈ (m.traced sort).reduce run, e.2 ≠ [] := by
  have hafter : ∀ (eq : E → E → Bool) (l : List (Traced E)) (last : Traced E), last.2 ≠ [] →
      (∀ v ∈ l, v.2 ≠ []) → ∀ e ∈ tracedDedupAfter eq last l, e.2 ≠ [] := by
    intro eq l
    induction l with
    | nil =>
      intro last hlast _ e he
      rw [tracedDedupAfter, List.mem_singleton] at he
      exact he ▸ hlast
    | cons a rest ih =>
      intro last hlast hl e he
      have hrest := fun v hv => hl v (List.mem_cons_of_mem _ hv)
      rw [tracedDedupAfter] at he
      split_ifs at he
      · exact ih (last.1, last.2 ++ a.2) (by simp [hlast]) hrest e he
      · rcases List.mem_cons.mp he with rfl | he
        · exact hlast
        · exact ih a (hl a List.mem_cons_self) hrest e he
  have hdedup : ∀ (eq : E → E → Bool) {l : List (Traced E)}, (∀ v ∈ l, v.2 ≠ []) →
      ∀ e ∈ tracedDedup eq l, e.2 ≠ [] := by
    intro eq l hl e he
    cases l with
    | nil => cases he
    | cons a rest =>
      exact hafter eq rest a (hl a List.mem_cons_self) (fun v hv => hl v (List.mem_cons_of_mem _ hv)) e he
  intro e he
  cases m with
  | nonAssociative => exact hrun e he
  | commutative => exact hrun e he
  | idempotent eq => exact hdedup eq.eq hrun e he
  | idempotentCommutative ord =>
    exact hdedup ord.eq (fun v hv => hrun v ((hs run).1.mem_iff.mp hv)) e he
  | associative combine =>
    cases run with
    | nil => cases he
    | cons a rest =>
      obtain rfl := List.mem_singleton.mp he
      rw [foldl_combine]
      simp [hrun a List.mem_cons_self]

theorem reduce_singleton (hs : m.Sorts sort) (v : Traced E) : (m.traced sort).reduce [v] = [v] := by
  cases m with
  | nonAssociative => rfl
  | commutative => rfl
  | idempotent eq => rfl
  | idempotentCommutative ord =>
    show tracedDedup ord.eq (sort [v]) = [v]
    rw [List.perm_singleton.mp (hs [v]).1]
    rfl
  | associative combine => rfl

/-! ### The order of a reduction -/

theorem pairwise_dedupAfter (ord : OrdImpl E) : ∀ (l : List E) (last : E),
    (∀ b ∈ l, ord.le last b = true) → (l.Pairwise fun a b => ord.le a b = true) →
      (last :: dedupAfter ord.eq last l).Pairwise fun a b => ord.le b a = false
  | [], last, _, _ => by simp [dedupAfter]
  | a :: rest, last, hlast, hl => by
    obtain ⟨ha, hrest⟩ := List.pairwise_cons.mp hl
    have hla := hlast a List.mem_cons_self
    rw [dedupAfter]
    split_ifs with heq
    · exact pairwise_dedupAfter ord rest last (fun b hb => hlast b (List.mem_cons_of_mem _ hb)) hrest
    · have ih := pairwise_dedupAfter ord rest a ha hrest
      have hlt : ord.le a last = false := by
        by_contra hle
        exact heq ((ord.eq_iff _ _).mpr ⟨by simpa using hle, hla⟩)
      refine List.pairwise_cons.mpr ⟨fun b hb => ?_, ih⟩
      rcases List.mem_cons.mp hb with rfl | hb
      · exact hlt
      · by_contra hle
        have hba := ord.le_trans _ _ _ (by simpa using hle) hla
        rw [(List.pairwise_cons.mp ih).1 b hb] at hba
        cases hba

/-- Every offset of a deduplicated event comes from an event that equals it. -/
theorem exists_equal (eq : EqImpl E) : ∀ (l : List (Traced E)) (last : Traced E),
    ∀ e ∈ tracedDedupAfter eq.eq last l, ∀ a ∈ e.2, ∃ v ∈ last :: l, a ∈ v.2 ∧ eq.eq v.1 e.1 = true
  | [], last, e, he, a, ha => by
    obtain rfl := List.mem_singleton.mp he
    exact ⟨e, List.mem_cons_self, ha, eq.refl _⟩
  | b :: rest, last, e, he, a, ha => by
    rw [tracedDedupAfter] at he
    split_ifs at he with hb
    · obtain ⟨v, hv, hav, hve⟩ := exists_equal eq rest _ e he a ha
      rcases List.mem_cons.mp hv with rfl | hv
      · rcases List.mem_append.mp hav with hav | hav
        · exact ⟨last, List.mem_cons_self, hav, hve⟩
        · exact ⟨b, by simp, hav, eq.trans _ _ _ hb hve⟩
      · exact ⟨v, by simp [hv], hav, hve⟩
    · rcases List.mem_cons.mp he with rfl | he
      · exact ⟨e, List.mem_cons_self, ha, eq.refl _⟩
      · obtain ⟨v, hv, h⟩ := exists_equal eq rest b e he a ha
        exact ⟨v, List.mem_cons_of_mem _ hv, h⟩

theorem sorted_traced {ord : OrdImpl E} (hs : ord.SortsTraced sort) (run : List (Traced E)) :
    (sort run).Pairwise fun a b => ord.le a.1 b.1 = true := by
  have h := ord.sort_sorted (run.map Prod.fst)
  rw [← (hs run).2] at h
  exact List.pairwise_map.mp h

theorem less_asymm {v w : E} (h : m.Less v w) : ¬ m.Less w v := by
  cases m with
  | idempotentCommutative ord =>
    intro h'
    rcases ord.le_total v w with hle | hle
    · rw [show ord.le v w = false from h'] at hle
      cases hle
    · rw [show ord.le w v = false from h] at hle
      cases hle
  | nonAssociative => exact h.elim
  | commutative => exact h.elim
  | idempotent eq => exact h.elim
  | associative combine => exact h.elim

theorem not_less (hm : (m.traced sort).associativity ≠ .idempotentCommutative) (v w : E) :
    ¬ m.Less v w := by
  cases m with
  | idempotentCommutative ord => exact absurd rfl hm
  | nonAssociative => exact id
  | commutative => exact id
  | idempotent eq => exact id
  | associative combine => exact id

/-- **The order of a reduction**: reduced events are in the order of their records, unless their type
sorts, and then in its order. -/
theorem pairwise_reduce (hs : m.Sorts sort) {run : List (Traced E)}
    (hrun : (run.flatMap Prod.snd).Pairwise (· < ·)) :
    ((m.traced sort).reduce run).Pairwise fun e e' => ∀ a ∈ e.2, ∀ b ∈ e'.2,
      (a < b ∧ ∀ v w, ¬ m.Less v w) ∨
        ∃ v ∈ run, ∃ w ∈ run, a ∈ v.2 ∧ b ∈ w.2 ∧ m.Less v.1 w.1 := by
  by_cases hm : (m.traced sort).associativity = .idempotentCommutative
  · cases m with
    | idempotentCommutative ord =>
      show (tracedDedup ord.eq (sort run)).Pairwise _
      cases hl : sort run with
      | nil => exact List.Pairwise.nil
      | cons last l =>
        have hsorted := sorted_traced hs run
        rw [hl] at hsorted
        obtain ⟨hlast, hpw⟩ := List.pairwise_cons.mp hsorted
        have hstrict := pairwise_dedupAfter ord (l.map Prod.fst) last.1
          (by simpa using fun b c hb => hlast (b, c) hb) (List.pairwise_map.mpr hpw)
        rw [← map_fst_dedupAfter, List.pairwise_map] at hstrict
        have hmem : ∀ {v}, v ∈ last :: l → v ∈ run := fun hv => (hs run).1.mem_iff.mp (hl ▸ hv)
        refine hstrict.imp_of_mem fun {e e'} he he' hlt a ha b hb => Or.inr ?_
        obtain ⟨v, hv, hav, hve⟩ := exists_equal ord.toEqImpl l last e he a ha
        obtain ⟨w, hw, hbw, hwe⟩ := exists_equal ord.toEqImpl l last e' he' b hb
        refine ⟨v, hmem hv, w, hmem hw, hav, hbw, ?_⟩
        show ord.le w.1 v.1 = false
        by_contra hle
        have h1 := ord.le_trans _ _ _ ((ord.eq_iff _ _).mp hwe).2 (by simpa using hle)
        rw [ord.le_trans _ _ _ h1 ((ord.eq_iff _ _).mp hve).1] at hlt
        cases hlt
    | nonAssociative => cases hm
    | commutative => cases hm
    | idempotent eq => cases hm
    | associative combine => cases hm
  · rw [← flatMap_snd_reduce hm run, List.pairwise_flatMap] at hrun
    exact hrun.2.imp fun h a ha b hb => Or.inl ⟨h a ha b hb, not_less hm⟩

/-- Events in one reduced event are not apart in the order of their type. -/
theorem not_less_reduce (hs : m.Sorts sort) {run : List (Traced E)} {e : Traced E}
    (he : e ∈ (m.traced sort).reduce run) {a b : ℕ} (ha : a ∈ e.2) (hb : b ∈ e.2) :
    ∃ v ∈ run, ∃ w ∈ run, a ∈ v.2 ∧ b ∈ w.2 ∧ ¬ m.Less v.1 w.1 := by
  by_cases hm : (m.traced sort).associativity = .idempotentCommutative
  · cases m with
    | idempotentCommutative ord =>
      have he' : e ∈ tracedDedup ord.eq (sort run) := he
      cases hl : sort run with
      | nil => rw [hl] at he'; cases he'
      | cons last l =>
        rw [hl] at he'
        have hmem : ∀ {v}, v ∈ last :: l → v ∈ run := fun hv => (hs run).1.mem_iff.mp (hl ▸ hv)
        obtain ⟨v, hv, hav, hve⟩ := exists_equal ord.toEqImpl l last e he' a ha
        obtain ⟨w, hw, hbw, hwe⟩ := exists_equal ord.toEqImpl l last e he' b hb
        refine ⟨v, hmem hv, w, hmem hw, hav, hbw, fun hlt => ?_⟩
        have hle := ((ord.eq_iff _ _).mp (ord.trans _ _ _ hwe (ord.symm _ _ hve))).1
        rw [show ord.le w.1 v.1 = false from hlt] at hle
        cases hle
    | nonAssociative => cases hm
    | commutative => cases hm
    | idempotent eq => cases hm
    | associative combine => cases hm
  · have hmem : ∀ {c}, c ∈ e.2 → ∃ v ∈ run, c ∈ v.2 := fun hc => List.mem_flatMap.mp
      ((perm_reduce hs run).mem_iff.mp (List.mem_flatMap.mpr ⟨e, he, hc⟩))
    obtain ⟨v, hv, hav⟩ := hmem ha
    obtain ⟨w, hw, hbw⟩ := hmem hb
    exact ⟨v, hv, w, hw, hav, hbw, not_less hm _ _⟩

end Traced

end Wakuwaku.Iggy.Partition

namespace Wakuwaku.Iggy.Consumer

open Wakuwaku.Iggy.Events Wakuwaku.Iggy.Partition

variable {P O : Type}

/-! ### Handlers -/

/-- A handler whose events and payloads are traced. -/
def Registered.traced (h : Registered P O) (m : Marker h.Target)
    (sort : List (Traced h.Target) → List (Traced h.Target)) : Registered (Traced P) (Traced O) where
  Target := Traced h.Target
  tag := h.tag
  topic := h.topic
  algebra := m.traced sort
  fromBytes payload := (h.fromBytes payload.1).map (·, payload.2)
  toBytes event := (h.toBytes event.1).map (·, event.2)
  maxBatch := h.maxBatch
  maxBatch_pos := h.maxBatch_pos
  observe event := (h.observe event.1, event.2)

/-- The marker of a handler, with a sort of its traced events. -/
structure Marked (h : Registered P O) where
  marker : Marker h.Target
  sort : List (Traced h.Target) → List (Traced h.Target)
  algebra_eq : h.algebra = marker.algebra
  sorts : marker.Sorts sort

namespace HandlerList

/-- The markers of the handlers in a list. -/
def Marking : HandlerList P O → Type
  | new head => Marked head
  | push chain head => chain.Marking × Marked head

/-- The handlers of a list, on traced payloads. -/
def traced : (handlers : HandlerList P O) → handlers.Marking → HandlerList (Traced P) (Traced O)
  | new head, marked => new (head.traced marked.marker marked.sort)
  | push chain head, marking =>
    push (chain.traced marking.1) (head.traced marking.2.marker marking.2.sort)

/-- The handler the list dispatches `tag` to, with its marker. -/
def findMarked (tag : EventTypeTag) : (handlers : HandlerList P O) → handlers.Marking →
    Option ((h : Registered P O) × Marked h)
  | new head, marked => if tag = head.tag then some ⟨head, marked⟩ else none
  | push chain head, marking =>
    if tag = head.tag then some ⟨head, marking.2⟩ else chain.findMarked tag marking.1

variable {tag : EventTypeTag}

theorem find_eq : ∀ (handlers : HandlerList P O) (marking : handlers.Marking),
    handlers.find tag = (handlers.findMarked tag marking).map Sigma.fst
  | new head, marked => by
    unfold find findMarked
    split_ifs <;> rfl
  | push chain head, marking => by
    unfold find findMarked
    split_ifs
    · rfl
    · exact find_eq chain marking.1

theorem find_traced : ∀ (handlers : HandlerList P O) (marking : handlers.Marking),
    (handlers.traced marking).find tag =
      (handlers.findMarked tag marking).map fun a => a.1.traced a.2.marker a.2.sort
  | new head, marked => by
    unfold traced find findMarked
    split_ifs <;> simp_all [Registered.traced]
  | push chain head, marking => by
    unfold traced find findMarked
    split_ifs <;> simp_all [Registered.traced, find_traced chain marking.1]

end HandlerList

/-- A record without its offsets. -/
def RunRecord.erase (record : RunRecord (Traced P)) : RunRecord P :=
  ⟨record.payload.1, record.associativity⟩

namespace Traced

variable {h : Registered P O} {m : Marker h.Target}
  {sort : List (Traced h.Target) → List (Traced h.Target)}

variable (h) in
/-- The events of some records, with their offsets. -/
def decoded (run : List (RunRecord (Traced P))) : List (Traced h.Target) :=
  run.filterMap fun record => (h.decodeOne record.erase).map (·, record.payload.2)

variable (h) in
/-- Encoded events, with their offsets. -/
def encoded (events : List (Traced h.Target)) : List (Traced P) :=
  events.filterMap fun event => ((h.toBytes event.1).toOption).map (·, event.2)

theorem decode_traced (ha : h.algebra = m.algebra) (run : List (RunRecord (Traced P))) :
    (h.traced m sort).decode run = (m.traced sort).reduce (decoded h run) := by
  have hone : (h.traced m sort).decodeOne = fun record : RunRecord (Traced P) =>
      (h.decodeOne record.erase).map fun event => (event, record.payload.2) := by
    funext record
    unfold Registered.decodeOne
    have hassoc : (h.traced m sort).algebra.associativity = h.algebra.associativity := by
      rw [ha]
      exact Marker.associativity_traced m sort
    rw [hassoc]
    by_cases hr : record.associativity ≠ h.algebra.associativity
    · rw [if_pos hr, if_pos (show record.erase.associativity ≠ _ from hr)]
      rfl
    · rw [if_neg hr, if_neg (show ¬ record.erase.associativity ≠ _ from hr)]
      show ((h.fromBytes record.payload.1).map _).toOption =
        ((h.fromBytes record.payload.1).toOption).map _
      cases h.fromBytes record.payload.1 <;> rfl
  unfold Registered.decode
  rw [hone]
  rfl

theorem encode_traced (events : List (Traced h.Target)) :
    (h.traced m sort).encode events = encoded h events := by
  refine List.filterMap_congr fun event _ => ?_
  show ((h.toBytes event.1).map fun p => (p, event.2)).toOption = _
  cases h.toBytes event.1 <;> rfl

theorem map_fst_decoded (run : List (RunRecord (Traced P))) :
    (decoded h run).map Prod.fst = (run.map RunRecord.erase).filterMap h.decodeOne := by
  rw [decoded, List.map_filterMap, List.filterMap_map]
  refine List.filterMap_congr fun record _ => ?_
  rw [Option.map_map]
  exact Option.map_id'

/-- **Erasing the offsets** gives the events of the handler as it is. -/
theorem map_fst_decode (ha : h.algebra = m.algebra) (hs : m.Sorts sort)
    (run : List (RunRecord (Traced P))) :
    ((m.traced sort).reduce (decoded h run)).map Prod.fst = h.decode (run.map RunRecord.erase) := by
  rw [Partition.Traced.map_fst_reduce hs, map_fst_decoded, Registered.decode, ha]

theorem map_fst_encode (events : List (Traced h.Target)) :
    (encoded h events).map Prod.fst = h.encode (events.map Prod.fst) := by
  rw [encoded, Registered.encode, List.map_filterMap, List.filterMap_map]
  refine List.filterMap_congr fun event _ => ?_
  rw [Option.map_map]
  exact Option.map_id'

/-- Decoding drops offsets only with their records. -/
theorem sublist_decoded (run : List (RunRecord (Traced P))) :
    ((decoded h run).flatMap Prod.snd).Sublist (run.flatMap (·.payload.2)) := by
  induction run with
  | nil => exact .slnil
  | cons record rest ih =>
    rw [List.flatMap_cons]
    cases hd : h.decodeOne record.erase with
    | none =>
      rw [decoded, List.filterMap_cons_none (by rw [hd]; rfl)]
      exact ih.trans (List.sublist_append_right _ _)
    | some event =>
      rw [decoded, List.filterMap_cons_some (by rw [hd]; rfl), List.flatMap_cons]
      exact (List.Sublist.refl _).append ih

/-- Encoding drops offsets only with their events. -/
theorem sublist_encoded (events : List (Traced h.Target)) :
    ((encoded h events).flatMap Prod.snd).Sublist (events.flatMap Prod.snd) := by
  induction events with
  | nil => exact .slnil
  | cons event rest ih =>
    rw [List.flatMap_cons]
    cases hb : (h.toBytes event.1).toOption with
    | none =>
      rw [encoded, List.filterMap_cons_none (by rw [hb]; rfl)]
      exact ih.trans (List.sublist_append_right _ _)
    | some payload =>
      rw [encoded, List.filterMap_cons_some (by rw [hb]; rfl), List.flatMap_cons]
      exact (List.Sublist.refl _).append ih

/-- The payloads of a reduced run, with their offsets. -/
theorem reduceRun_traced {handlers : HandlerList P O} (marking : handlers.Marking) (tag : EventTypeTag)
    (run : List (RunRecord (Traced P))) :
    (handlers.traced marking).reduceRun tag run = match handlers.findMarked tag marking with
      | some a => encoded a.1 ((a.2.marker.traced a.2.sort).reduce (decoded a.1 run))
      | none => [] := by
  rw [HandlerList.reduceRun_eq, HandlerList.find_traced]
  cases handlers.findMarked tag marking with
  | none => rfl
  | some a =>
    exact (encode_traced _).trans (congrArg (encoded a.1) (decode_traced a.2.algebra_eq run))

/-- Encoding keeps what holds of the offsets of events. -/
theorem pairwise_encoded {r : List ℕ → List ℕ → Prop} {events : List (Traced h.Target)}
    (he : events.Pairwise fun e e' => r e.2 e'.2) : (encoded h events).Pairwise fun p p' => r p.2 p'.2 := by
  refine List.pairwise_filterMap.mpr (he.imp fun hr p hp p' hp' => ?_)
  obtain ⟨_, -, rfl⟩ := Option.map_eq_some_iff.mp hp
  obtain ⟨_, -, rfl⟩ := Option.map_eq_some_iff.mp hp'
  exact hr

theorem exists_of_mem_encoded {events : List (Traced h.Target)} {p : Traced P}
    (hp : p ∈ encoded h events) : ∃ e ∈ events, e.2 = p.2 := by
  obtain ⟨e, he, heq⟩ := List.mem_filterMap.mp hp
  obtain ⟨_, -, rfl⟩ := Option.map_eq_some_iff.mp heq
  exact ⟨e, he, rfl⟩

end Traced

end Wakuwaku.Iggy.Consumer
