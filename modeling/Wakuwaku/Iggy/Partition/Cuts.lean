import Wakuwaku.Cut
import Wakuwaku.Iggy.Partition.Build

/-! # What the planner is for

The records of a key are cut into segments, each read off the records before it alone (`startsNew`,
`segmentsFor`), and the records of a segment are grouped by type around its head and its tail
(`grouped`). The walk cuts the records of every key in this way (`cut_assignSegments`), and the plan
shows of every key its segments (`segments_new`). -/

namespace Wakuwaku.Iggy.Partition

open Wakuwaku.Iggy.Events

variable {K : Type}

/-! ### The intended grouping -/

/-- A record starts a new segment after `p`, the records of its key's last segment: `p` ended with a
`Release`, or the record acquires, or it is a `Release` of the type that acquired in `p`, which holds
other types too. -/
def startsNew (p : List (PlanRecord K)) (r : PlanRecord K) : Bool :=
  p.getLast?.any (·.ordering == .release) || r.ordering.acquires ||
    (r.ordering == .release && p.head?.any (fun f => f.ordering.acquires && f.tag == r.tag) &&
      p.any (·.tag != r.tag))

/-- The records of a key with their indices, in log order. -/
def recordsOf [DecidableEq K] (records : List (PlanRecord K)) (k : K) : List (PlanRecord K × ℕ) :=
  records.zipIdx.filter (·.1.key = k)

/-- The segments of a key. -/
def segmentsFor [DecidableEq K] (records : List (PlanRecord K)) (k : K) :
    List (List (PlanRecord K × ℕ)) :=
  cutInto (fun p r => startsNew (p.map Prod.fst) r.1) (recordsOf records k)

/-- The type of a segment's head: that of its first record, if that acquires. -/
def headTag (p : List (PlanRecord K)) : Option EventTypeTag :=
  (p.head?.filter (·.ordering.acquires)).map PlanRecord.tag

/-- The type of the `Release` a segment ends with. -/
def releaseTag (p : List (PlanRecord K)) : Option EventTypeTag :=
  (p.getLast?.filter (·.ordering == .release)).map PlanRecord.tag

/-- The type of a segment's tail: that of its `Release`, unless it is the head's. -/
def tailTag (p : List (PlanRecord K)) : Option EventTypeTag := (releaseTag p).filter (headTag p != some ·)

/-- The other types, by number. -/
def bodyTags (p : List (PlanRecord K)) : List EventTypeTag :=
  ((p.map PlanRecord.tag).filter fun t => headTag p ≠ some t ∧ tailTag p ≠ some t).dedup.insertionSort
    fun t u => t.get.toNat ≤ u.get.toNat

/-- A type, and the indices of its records in a segment. -/
def runOfTag (p : List (PlanRecord K × ℕ)) (t : EventTypeTag) : EventTypeTag × List ℕ :=
  (t, (p.filter (·.1.tag = t)).map Prod.snd)

/-- A segment by type. -/
def grouped (p : List (PlanRecord K × ℕ)) : SegmentView where
  head := (headTag (p.map Prod.fst)).map (runOfTag p)
  body := (bodyTags (p.map Prod.fst)).map (runOfTag p)
  tail := (tailTag (p.map Prod.fst)).map (runOfTag p)

namespace Cuts

open Wakuwaku.Iggy.Partition.Segments Wakuwaku.Iggy.Partition.Grouping
open Wakuwaku.Iggy.Partition.Build

/-! ### The records of a segment -/

/-- The records of a segment with their indices, in log order. -/
def contents (records : List (PlanRecord K)) (w : Walk K) (s : ℕ) : List (PlanRecord K × ℕ) :=
  records.zipIdx.filter fun p => w.segmentOf[p.2]? = some s

section Contents

variable {records : List (PlanRecord K)} {w : Walk K} {s : ℕ}

theorem mem_contents {p : PlanRecord K × ℕ} : p ∈ contents records w s ↔ At records w p.2 p.1 s := by
  simp only [contents, List.mem_filter, List.mem_zipIdx_iff_getElem?, decide_eq_true_eq, At]

theorem pairwise_zipIdx : records.zipIdx.Pairwise (·.2 < ·.2) := by
  have h : (records.zipIdx.map Prod.snd).Pairwise (· < ·) := by
    rw [List.zipIdx_map_snd]
    exact List.pairwise_lt_range'
  exact List.pairwise_map.mp h

theorem pairwise_contents : (contents records w s).Pairwise (·.2 < ·.2) := pairwise_zipIdx.filter _

theorem zipIdx_concat (r : PlanRecord K) :
    (records ++ [r]).zipIdx = records.zipIdx ++ [(r, records.length)] := by
  simp [List.zipIdx_append]

theorem recordsOf_concat [DecidableEq K] (r : PlanRecord K) (k : K) : recordsOf (records ++ [r]) k =
    recordsOf records k ++ if r.key = k then [(r, records.length)] else [] := by
  unfold recordsOf
  rw [zipIdx_concat, List.filter_append, List.filter_singleton]
  simp only [Bool.cond_decide]

variable (h : Ok records w) (hs : s < w.metas.length)
include h hs

theorem contents_ne_nil : contents records w s ≠ [] := by
  obtain ⟨i, r, hi⟩ := h.nonempty s hs
  exact List.ne_nil_of_mem (mem_contents.mpr hi : (r, i) ∈ contents records w s)

/-- Only the first record of a segment acquires. -/
theorem acquires_iff_head {t : EventTypeTag} :
    (∃ i r, At records w i r s ∧ r.ordering.acquires = true ∧ r.tag = t) ↔
      headTag ((contents records w s).map Prod.fst) = some t := by
  obtain ⟨p, l, hl⟩ := List.exists_cons_of_ne_nil (contents_ne_nil h hs)
  have hp : At records w p.2 p.1 s := mem_contents.mp (hl ▸ List.mem_cons_self)
  simp only [headTag, hl, List.map_cons, List.head?_cons, Option.map_eq_some_iff,
    Option.filter_eq_some_iff, Option.some.injEq]
  constructor
  · rintro ⟨i, r, hi, ha, rfl⟩
    have hmem : (r, i) ∈ contents records w s := mem_contents.mpr hi
    rw [hl] at hmem
    rcases List.mem_cons.mp hmem with rfl | hmem
    · exact ⟨_, ⟨rfl, ha⟩, rfl⟩
    · have hlt := (List.pairwise_cons.mp (hl ▸ pairwise_contents)).1 _ hmem
      rw [h.first _ _ _ _ _ hp hi hlt] at ha
      cases ha
  · rintro ⟨r, ⟨rfl, ha⟩, rfl⟩
    exact ⟨p.2, p.1, hp, ha, rfl⟩

/-- Only the last record of a segment releases. -/
theorem release_iff_last {t : EventTypeTag} :
    (∃ i r, At records w i r s ∧ r.ordering = .release ∧ r.tag = t) ↔
      releaseTag ((contents records w s).map Prod.fst) = some t := by
  obtain ⟨l, p, hl⟩ := List.eq_nil_or_concat _ |>.resolve_left (contents_ne_nil h hs)
  rw [List.concat_eq_append] at hl
  have hp : At records w p.2 p.1 s := mem_contents.mp (hl ▸ List.mem_append_right _ (by simp))
  simp only [releaseTag, hl, List.map_append, List.map_singleton, List.getLast?_concat,
    Option.map_eq_some_iff, Option.filter_eq_some_iff, Option.some.injEq, beq_iff_eq]
  constructor
  · rintro ⟨i, r, hi, ha, rfl⟩
    have hmem : (r, i) ∈ contents records w s := mem_contents.mpr hi
    rw [hl] at hmem
    rcases List.mem_append.mp hmem with hmem | hmem
    · have hlt := (List.pairwise_append.mp (hl ▸ pairwise_contents)).2.2 _ hmem p (by simp)
      exact absurd ha (h.last _ _ _ _ _ hi hp hlt)
    · obtain rfl := List.mem_singleton.mp hmem
      exact ⟨_, ⟨rfl, ha⟩, rfl⟩
  · rintro ⟨r, ⟨rfl, ha⟩, rfl⟩
    exact ⟨p.2, p.1, hp, ha, rfl⟩

/-- The metadata of a segment, read off its records. -/
theorem head_eq {m : SegmentMeta} (hm : w.metas[s]? = some m) :
    m.head = headTag ((contents records w s).map Prod.fst) :=
  Option.ext fun t => ((h.describes s m hm).head t).trans (acquires_iff_head h hs)

theorem tail_eq {m : SegmentMeta} (hm : w.metas[s]? = some m) :
    m.tail = releaseTag ((contents records w s).map Prod.fst) :=
  Option.ext fun t => ((h.describes s m hm).tail t).trans (release_iff_last h hs)

/-- An open segment is cut off by the records that start a new one. -/
theorem cut_eq {m : SegmentMeta} (hm : w.metas[s]? = some m) (r : PlanRecord K)
    (hopen : ∀ p ∈ (contents records w s).getLast?, p.1.ordering ≠ .release) :
    m.cut r.tag r.ordering = startsNew ((contents records w s).map Prod.fst) r := by
  have hlast : (((contents records w s).map Prod.fst).getLast?).any (·.ordering == .release) = false := by
    rw [List.getLast?_map]
    cases hl : (contents records w s).getLast? with
    | none => rfl
    | some p => simpa using hopen p hl
  unfold startsNew
  rw [hlast, Bool.false_or]
  cases ho : r.ordering with
  | relaxed => simp [SegmentMeta.cut, EventAtomicOrdering.acquires]
  | acquire => simp [SegmentMeta.cut, EventAtomicOrdering.acquires]
  | acqRel => simp [SegmentMeta.cut, EventAtomicOrdering.acquires]
  | release =>
    have hhead : (m.head == some r.tag) = (((contents records w s).map Prod.fst).head?).any
        (fun f => f.ordering.acquires && f.tag == r.tag) := by
      rw [head_eq h hs hm, headTag]
      cases ((contents records w s).map Prod.fst).head? with
      | none => rfl
      | some f => cases hf : f.ordering.acquires <;> simp [Option.filter, hf]
    have hmixed : m.head = some r.tag →
        m.mixed = ((contents records w s).map Prod.fst).any (·.tag != r.tag) := by
      intro hh
      rw [Bool.eq_iff_iff, (h.describes s m hm).mixed, hh]
      simp only [Option.some.injEq, exists_eq_left', List.any_map, List.any_eq_true,
        Function.comp_apply, bne_iff_ne]
      constructor
      · rintro ⟨i, r', hi, hne⟩
        exact ⟨(r', i), mem_contents.mpr hi, hne⟩
      · rintro ⟨p, hp, hne⟩
        exact ⟨p.2, p.1, mem_contents.mp hp, hne⟩
    have hrel : EventAtomicOrdering.release.acquires = false := rfl
    rw [hrel, Bool.false_or, ← hhead]
    simp only [SegmentMeta.cut, beq_self_eq_true, Bool.true_and]
    by_cases hh : m.head = some r.tag
    · rw [hmixed hh, Bool.and_comm]
    · rw [beq_false_of_ne hh, Bool.and_false, Bool.false_and]

end Contents

/-! ### One record of the walk -/

/-- What the walk has done so far: of every key it has met it cut the records into segments, and the
last of them is open unless it ended with a `Release`. -/
structure Cut [DecidableEq K] (pre : List (PlanRecord K)) (w : Walk K) : Prop where
  segments : ∀ k κ o, w.slots k = some (κ, o) →
    (segmentsAt w κ).map (contents pre w) = segmentsFor pre k
  opened : ∀ k κ o, w.slots k = some (κ, o) → ∃ p ∈ (recordsOf pre k).getLast?,
    o = if p.1.ordering = .release then none else (segmentsAt w κ).getLast?

section Step

variable [DecidableEq K] {pre : List (PlanRecord K)} {w : Walk K} {r₀ : PlanRecord K}

/-- Where the walk puts a record whose key has an open segment, and one whose key has none. -/
theorem segmentOf_step_open {κ s : ℕ} {m : SegmentMeta} (hsl : w.slots r₀.key = some (κ, some s))
    (hm : w.metas[s]? = some m) : (w.step r₀).segmentOf =
      w.segmentOf ++ [if m.cut r₀.tag r₀.ordering then w.metas.length else s] := by
  cases hc : m.cut r₀.tag r₀.ordering with
  | true => simp [Walk.step, Walk.slot, hsl, Walk.target, hm, hc, Option.filter]
  | false => simp [Walk.step, Walk.slot, hsl, Walk.target, hm, hc, Option.filter]

theorem segmentOf_step_closed (hsl : ∀ κ s, w.slots r₀.key ≠ some (κ, some s)) :
    (w.step r₀).segmentOf = w.segmentOf ++ [w.metas.length] := by
  rcases hs : w.slots r₀.key with _ | ⟨κ, _ | s⟩
  · simp [Walk.step, Walk.slot, hs, Walk.target]
  · simp [Walk.step, Walk.slot, hs, Walk.target]
  · exact absurd hs (hsl κ s)

variable {w' : Walk K} {κ₀ s₀ : ℕ} {m₀ : SegmentMeta} (h : Ok pre w)
  (hs : Stepped pre w w' r₀ κ₀ s₀ m₀)
include h hs

theorem contents_step (s : ℕ) : contents (pre ++ [r₀]) w' s =
    contents pre w s ++ if s = s₀ then [(r₀, pre.length)] else [] := by
  unfold contents
  rw [zipIdx_concat, List.filter_append, List.filter_singleton, hs.segmentOf]
  congr 1
  · refine List.filter_congr fun p hp => ?_
    have hlt : p.2 < w.segmentOf.length := by
      rw [h.len]
      exact (List.getElem?_eq_some_iff.mp (List.mem_zipIdx_iff_getElem?.mp hp)).1
    rw [List.getElem?_append_left hlt]
  · have hget : (w.segmentOf ++ [s₀])[pre.length]? = some s₀ := by rw [← h.len]; simp
    simp only [hget, Option.some.injEq, Bool.cond_decide, eq_comm]

omit h in
theorem segmentsAt_step (κ : ℕ) : segmentsAt w' κ =
    segmentsAt w κ ++ if s₀ = w.metas.length ∧ κ = κ₀ then [s₀] else [] := by
  have hkey : ∀ s, (w'.metas[s]?).map SegmentMeta.key =
      if s = s₀ then some κ₀ else (w.metas[s]?).map SegmentMeta.key := by
    intro s
    rw [hs.metas]
    split_ifs
    · exact congrArg some hs.key
    · rfl
  unfold segmentsAt
  simp only [hkey, hs.length]
  rcases hs.target with ⟨-, hm, -⟩ | ⟨rfl, -⟩
  · have hlt : s₀ < w.metas.length := (List.getElem?_eq_some_iff.mp hm).1
    rw [Nat.max_eq_left hlt, if_neg fun hc => Nat.ne_of_lt hlt hc.1, List.append_nil]
    refine List.filter_congr fun s _ => ?_
    split_ifs with hss
    · rw [hss, hm, Option.map_some, hs.key]
    · rfl
  · rw [Nat.max_eq_right (Nat.le_succ _), List.range_succ, List.filter_append, List.filter_singleton]
    congr 1
    · refine List.filter_congr fun s hsl => ?_
      rw [if_neg (Nat.ne_of_lt (List.mem_range.mp hsl))]
    · simp only [↓reduceIte, Option.some.injEq, Bool.cond_decide, true_and, eq_comm]

/-- The records of the other keys stay in their segments. -/
theorem segments_other (hok : Ok (pre ++ [r₀]) w') {k : K} (hk : r₀.key ≠ k)
    {κ : ℕ} {o : Option ℕ} (hsl : w'.slots k = some (κ, o)) :
    w.slots k = some (κ, o) ∧ segmentsAt w' κ = segmentsAt w κ ∧
      (segmentsAt w' κ).map (contents (pre ++ [r₀]) w') = (segmentsAt w κ).map (contents pre w) := by
  have hslot : w.slots k = some (κ, o) := (slots_of_ne hs hk.symm).symm.trans hsl
  have hne : κ ≠ κ₀ := by
    rintro rfl
    have h1 := (hok.index _ _ _ hsl).symm.trans (hok.index _ _ _ (slots_self hs))
    exact hk (congrArg KeyPlan.key (Option.some.inj h1)).symm
  have hseg : segmentsAt w' κ = segmentsAt w κ := by
    rw [segmentsAt_step hs, if_neg fun hx => hne hx.2, List.append_nil]
  refine ⟨hslot, hseg, ?_⟩
  rw [hseg]
  refine List.map_congr_left fun s hmem => ?_
  have hss : s ≠ s₀ := by
    rintro rfl
    rw [← hseg] at hmem
    obtain ⟨m, hm, hκ⟩ := mem_segmentsAt.mp hmem
    rw [metas_self hs] at hm
    cases hm
    exact hne (hκ.symm.trans hs.key)
  rw [contents_step h hs, if_neg hss, List.append_nil]

omit [DecidableEq K] hs in
theorem contents_length : contents pre w w.metas.length = [] := by
  refine List.eq_nil_iff_forall_not_mem.mpr fun p hp => ?_
  obtain ⟨m, o, hm, -⟩ := h.seg _ _ _ (mem_contents.mp hp)
  exact Nat.lt_irrefl _ (List.getElem?_eq_some_iff.mp hm).1

omit [DecidableEq K] h hs in
theorem lt_of_mem_segmentsAt {κ s : ℕ} (hmem : s ∈ segmentsAt w κ) : s < w.metas.length := by
  obtain ⟨m, hm, -⟩ := mem_segmentsAt.mp hmem
  exact (List.getElem?_eq_some_iff.mp hm).1

/-- A record that goes to a new segment. -/
theorem segments_begun (hnew : s₀ = w.metas.length) :
    segmentsAt w' κ₀ = segmentsAt w κ₀ ++ [s₀] ∧
      (segmentsAt w' κ₀).map (contents (pre ++ [r₀]) w') =
        (segmentsAt w κ₀).map (contents pre w) ++ [[(r₀, pre.length)]] := by
  have hseg : segmentsAt w' κ₀ = segmentsAt w κ₀ ++ [s₀] := by
    rw [segmentsAt_step hs, if_pos ⟨hnew, rfl⟩]
  refine ⟨hseg, ?_⟩
  rw [hseg, List.map_append, List.map_singleton]
  congr 1
  · refine List.map_congr_left fun s hmem => ?_
    have hne : s ≠ s₀ := Nat.ne_of_lt (hnew ▸ lt_of_mem_segmentsAt hmem)
    rw [contents_step h hs, if_neg hne, List.append_nil]
  · rw [contents_step h hs, if_pos rfl, hnew, contents_length h, List.nil_append]

/-- A record that joins the last segment of its key. -/
theorem segments_joined {ss : List ℕ} (hlast : segmentsAt w κ₀ = ss ++ [s₀]) :
    segmentsAt w' κ₀ = segmentsAt w κ₀ ∧
      (segmentsAt w' κ₀).map (contents (pre ++ [r₀]) w') =
        ss.map (contents pre w) ++ [contents pre w s₀ ++ [(r₀, pre.length)]] := by
  have hlt : s₀ < w.metas.length := lt_of_mem_segmentsAt (hlast ▸ List.mem_append_right _ (by simp))
  have hseg : segmentsAt w' κ₀ = segmentsAt w κ₀ := by
    rw [segmentsAt_step hs, if_neg fun hx => Nat.ne_of_lt hlt hx.1, List.append_nil]
  refine ⟨hseg, ?_⟩
  rw [hseg, hlast, List.map_append, List.map_singleton]
  congr 1
  · refine List.map_congr_left fun s hmem => ?_
    have hpw : (ss ++ [s₀]).Pairwise (· < ·) := hlast ▸ pairwise_segmentsAt κ₀
    have hne : s ≠ s₀ := Nat.ne_of_lt ((List.pairwise_append.mp hpw).2.2 s hmem s₀ (by simp))
    rw [contents_step h hs, if_neg hne, List.append_nil]
  · rw [contents_step h hs, if_pos rfl]

omit hs in
/-- The first record of a key. -/
theorem recordsOf_new (hsl : w.slots r₀.key = none) : recordsOf pre r₀.key = [] := by
  refine List.filter_eq_nil_iff.mpr fun p hp => ?_
  have hmem : p.1 ∈ pre := List.mem_of_getElem? (List.mem_zipIdx_iff_getElem?.mp hp)
  simpa using (h.slots _).mp hsl _ hmem

omit [DecidableEq K] hs in
theorem segmentsAt_length : segmentsAt w w.keys.length = [] := by
  refine List.eq_nil_iff_forall_not_mem.mpr fun s hmem => ?_
  obtain ⟨m, hm, hκ⟩ := mem_segmentsAt.mp hmem
  obtain ⟨i, r, hi⟩ := h.nonempty s (lt_of_mem_segmentsAt hmem)
  obtain ⟨m', o, hm', ho⟩ := h.seg _ _ _ hi
  obtain rfl : m' = m := Option.some.inj (hm'.symm.trans hm)
  have hlt := (List.getElem?_eq_some_iff.mp (h.index _ _ _ ho)).1
  exact Nat.ne_of_lt hlt hκ

/-- The last segment of a key that has one, and where the next record of the key goes. -/
theorem target_iff (hstep : w' = w.step r₀) (hc : Cut pre w) {o : Option ℕ}
    (hsl : w.slots r₀.key = some (κ₀, o)) : ∃ ss last, segmentsAt w κ₀ = ss ++ [last] ∧
      segmentsFor pre r₀.key = ss.map (contents pre w) ++ [contents pre w last] ∧
        s₀ = if startsNew ((contents pre w last).map Prod.fst) r₀ then w.metas.length else last := by
  obtain ⟨p, hp, ho⟩ := hc.opened _ _ _ hsl
  have hne : recordsOf pre r₀.key ≠ [] := by
    rintro hnil
    rw [hnil] at hp
    cases hp
  obtain ⟨parts, part, hparts, hpart⟩ := exists_last_part
    (fun q r => startsNew (q.map Prod.fst) r.1) hne
  have hseg := hc.segments _ _ _ hsl
  rw [segmentsFor, hparts] at hseg
  obtain ⟨ss, rest, hss, -, hrest⟩ := List.map_eq_append_iff.mp hseg
  obtain ⟨last, rfl, hlast⟩ : ∃ last, rest = [last] ∧ contents pre w last = part := by
    obtain ⟨last, rest', rfl, hl, hr⟩ := List.map_eq_cons_iff.mp hrest
    exact ⟨last, by rw [List.map_eq_nil_iff.mp hr], hl⟩
  refine ⟨ss, last, hss, ?_, ?_⟩
  · rw [← hc.segments _ _ _ hsl, hss, List.map_append, List.map_singleton]
  have hlastp : p ∈ (contents pre w last).getLast? := by
    rw [hlast, hpart]
    exact hp
  obtain ⟨m, hm, -⟩ := mem_segmentsAt.mp (hss ▸ List.mem_append_right ss (List.mem_singleton_self last))
  have hsingle : ∀ t, w'.segmentOf = w.segmentOf ++ [t] → s₀ = t := by
    intro t ht
    rw [hs.segmentOf] at ht
    exact List.singleton_inj.mp (List.append_cancel_left ht)
  rw [hss, List.getLast?_concat] at ho
  by_cases hrel : p.1.ordering = .release
  · rw [if_pos hrel] at ho
    have hstart : startsNew ((contents pre w last).map Prod.fst) r₀ = true := by
      unfold startsNew
      rw [List.getLast?_map, Option.mem_def.mp hlastp]
      simp [hrel]
    rw [hstart, if_pos rfl]
    refine hsingle _ (hstep ▸ segmentOf_step_closed fun κ s hx => ?_)
    rw [hsl, ho] at hx
    cases hx
  · rw [if_neg hrel] at ho
    have hopen : ∀ q ∈ (contents pre w last).getLast?, q.1.ordering ≠ .release := by
      intro q hq
      rw [Option.mem_unique hq hlastp]
      exact hrel
    rw [← cut_eq h (List.getElem?_eq_some_iff.mp hm).1 hm r₀ hopen]
    exact hsingle _ (hstep ▸ segmentOf_step_open (ho ▸ hsl) hm)

/-- The segments of the record's own key. -/
theorem segments_own (hstep : w' = w.step r₀) (hc : Cut pre w) :
    (segmentsAt w' κ₀).map (contents (pre ++ [r₀]) w') = segmentsFor (pre ++ [r₀]) r₀.key ∧
      (segmentsAt w' κ₀).getLast? = some s₀ := by
  have hfor : segmentsFor (pre ++ [r₀]) r₀.key =
      addPart (fun q r => startsNew (q.map Prod.fst) r.1) (segmentsFor pre r₀.key) (r₀, pre.length) := by
    rw [segmentsFor, recordsOf_concat, if_pos rfl, cutInto_concat, ← segmentsFor]
  cases hsl : w.slots r₀.key with
  | none =>
    obtain ⟨hnew, hκ⟩ : s₀ = w.metas.length ∧ κ₀ = w.keys.length := by
      rcases hs.target with ⟨ht, -, -⟩ | ⟨ht, -⟩
      · rw [hsl] at ht
        cases ht
      · rcases hs.keys with ⟨⟨o, ho⟩, -⟩ | ⟨-, hκ, -⟩
        · rw [hsl] at ho
          cases ho
        · exact ⟨ht, hκ⟩
    obtain ⟨hseg, hmap⟩ := segments_begun h hs hnew
    rw [hmap, hseg, hfor, hκ, segmentsAt_length h, segmentsFor, recordsOf_new h hsl]
    exact ⟨rfl, rfl⟩
  | some slot =>
    obtain ⟨κ, o⟩ := slot
    obtain rfl : κ = κ₀ := by
      rcases hs.keys with ⟨⟨o', ho⟩, -⟩ | ⟨ho, -, -⟩
      · exact (Prod.mk.inj (Option.some.inj (hsl.symm.trans ho))).1
      · rw [hsl] at ho
        cases ho
    obtain ⟨ss, last, hss, hsegs, htarget⟩ := target_iff h hs hstep hc hsl
    rw [hfor, hsegs, addPart_concat]
    split_ifs at htarget ⊢ with hcut
    · obtain ⟨hseg, hmap⟩ := segments_begun h hs htarget
      rw [hmap, hseg, hss]
      simp
    · subst htarget
      obtain ⟨hseg, hmap⟩ := segments_joined h hs hss
      rw [hmap, hseg, hss]
      simp

end Step

theorem cut_start [DecidableEq K] : Cut ([] : List (PlanRecord K)) Walk.start := by
  constructor <;> simp [Walk.start]

theorem cut_step [DecidableEq K] {pre : List (PlanRecord K)} {w : Walk K} (h : Ok pre w)
    (hc : Cut pre w) (r₀ : PlanRecord K) : Cut (pre ++ [r₀]) (w.step r₀) := by
  obtain ⟨κ₀, s₀, m₀, hs⟩ := stepped r₀ h
  have hok := hs.ok h
  have hslot := slots_self hs
  obtain ⟨hown, hlast⟩ := segments_own h hs rfl hc
  constructor
  · intro k κ o hsl
    by_cases hk : r₀.key = k
    · subst hk
      rw [hslot] at hsl
      cases hsl
      exact hown
    · obtain ⟨hsl', -, hmap⟩ := segments_other h hs hok hk hsl
      rw [hmap, hc.segments _ _ _ hsl', segmentsFor, segmentsFor, recordsOf_concat, if_neg hk,
        List.append_nil]
  · intro k κ o hsl
    by_cases hk : r₀.key = k
    · subst hk
      rw [hslot] at hsl
      cases hsl
      refine ⟨(r₀, pre.length), ?_, by rw [hlast]⟩
      rw [recordsOf_concat, if_pos rfl, List.getLast?_concat]
      rfl
    · obtain ⟨hsl', hseg, -⟩ := segments_other h hs hok hk hsl
      rw [recordsOf_concat, if_neg hk, List.append_nil, hseg]
      exact hc.opened _ _ _ hsl'

/-- **The walk cuts the records of every key into its segments.** -/
theorem cut_assignSegments [DecidableEq K] (records : List (PlanRecord K)) :
    Cut records (assignSegments records) := by
  induction records using List.reverseRecOn with
  | nil => exact cut_start
  | append_singleton pre r ih =>
    have h := ok_assignSegments pre
    simp only [assignSegments, List.foldl_append, List.foldl_cons, List.foldl_nil] at h ih ⊢
    exact cut_step h ih r

/-! ### The plan -/

section View

variable {records : List (PlanRecord K)} {w : Walk K} {s : ℕ} {m : SegmentMeta} (h : Ok records w)
  (hm : w.metas[s]? = some m)
include h hm

/-- The records of a run are those of its type in the segment. -/
theorem members_eq (t : EventTypeTag) : members records w ⟨s, m.rank t, t⟩ =
    ((contents records w s).filter (·.1.tag = t)).map Prod.snd := by
  have hrange : List.range records.length = records.zipIdx.map Prod.snd := by
    rw [List.zipIdx_map_snd, List.range_eq_range']
  unfold members contents
  rw [hrange, List.filter_map, List.filter_filter]
  refine congrArg _ (List.filter_congr fun p hp => ?_)
  obtain ⟨s', hat⟩ := exists_at h (List.mem_zipIdx_iff_getElem?.mp hp)
  obtain ⟨m', -, hm', -⟩ := h.seg _ _ _ hat
  rw [Function.comp_apply, runKey_at hat hm', hat.2, ← Bool.decide_and, decide_eq_decide]
  simp only [RunKey.mk.injEq, Option.some.injEq]
  constructor
  · rintro ⟨hs, -, ht⟩
    exact ⟨ht, hs⟩
  · rintro ⟨rfl, rfl⟩
    obtain rfl : m' = m := Option.some.inj (hm'.symm.trans hm)
    exact ⟨rfl, rfl, rfl⟩

theorem tailTag_eq : m.tail.filter (m.head != some ·) = tailTag ((contents records w s).map Prod.fst) := by
  have hlt := (List.getElem?_eq_some_iff.mp hm).1
  rw [tailTag, head_eq h hlt hm, tail_eq h hlt hm]

/-- The types in a body are those of neither the head nor the tail. -/
theorem rank_body_iff (t : EventTypeTag) : m.rank t = .body ↔
    headTag ((contents records w s).map Prod.fst) ≠ some t ∧
      tailTag ((contents records w s).map Prod.fst) ≠ some t := by
  rw [← tailTag_eq h hm, ← head_eq h (List.getElem?_eq_some_iff.mp hm).1 hm]
  unfold SegmentMeta.rank
  split_ifs with hh ht
  · simp [hh]
  · simp [hh, ht, Option.filter]
  · simpa [hh, Option.filter_eq_some_iff] using fun hc => absurd hc ht

theorem bodyKeys_eq : bodyKeys records w s =
    (bodyTags ((contents records w s).map Prod.fst)).map fun t => ⟨s, .body, t⟩ := by
  have hanti : Std.Antisymm fun a b : RunKey => a.tag.get.toNat < b.tag.get.toNat :=
    ⟨fun _ _ hab hba => absurd hab (Nat.lt_asymm hba)⟩
  have hirrefl : Std.Irrefl fun a b : RunKey => a.tag.get.toNat < b.tag.get.toNat :=
    ⟨fun _ => Nat.lt_irrefl _⟩
  have htotal : Std.Total fun t u : EventTypeTag => t.get.toNat ≤ u.get.toNat := ⟨fun _ _ => le_total _ _⟩
  have htrans : IsTrans EventTypeTag fun t u => t.get.toNat ≤ u.get.toNat := ⟨fun _ _ _ => le_trans⟩
  have hsorted : (bodyTags ((contents records w s).map Prod.fst)).Pairwise
      fun t u => t.get.toNat < u.get.toNat := by
    have hnd := (List.perm_insertionSort (fun t u : EventTypeTag => t.get.toNat ≤ u.get.toNat) _).nodup_iff.mpr
      (List.nodup_dedup (((contents records w s).map Prod.fst |>.map PlanRecord.tag).filter fun t =>
        headTag ((contents records w s).map Prod.fst) ≠ some t ∧
          tailTag ((contents records w s).map Prod.fst) ≠ some t))
    refine ((List.pairwise_insertionSort _ _).and hnd).imp fun ⟨hle, hne⟩ => ?_
    exact lt_of_le_of_ne hle fun he => hne (EventTypeTag.toNat_inj.mp he)
  refine (pairwise_bodyKeys s).eq_of_mem_iff (List.pairwise_map.mpr hsorted) fun a => ?_
  simp only [mem_bodyKeys, bodyTags, List.mem_map, List.mem_insertionSort, List.mem_dedup,
    List.mem_filter, decide_eq_true_eq, ← rank_body_iff h hm]
  constructor
  · rintro ⟨⟨i, hi, hk⟩, hseg, hrank⟩
    obtain ⟨r, s', m', hat, hm', -, hk'⟩ := exists_runKey h hi
    obtain rfl : a = ⟨s', m'.rank r.tag, r.tag⟩ := hk.symm.trans hk'
    obtain rfl : s' = s := hseg
    obtain rfl : m' = m := Option.some.inj (hm'.symm.trans hm)
    refine ⟨r.tag, ⟨⟨r, ⟨(r, i), mem_contents.mpr hat, rfl⟩, rfl⟩, hrank⟩, ?_⟩
    exact congrArg (fun rank => RunKey.mk s' rank r.tag) hrank.symm
  · rintro ⟨t, ⟨⟨r, ⟨⟨r', i⟩, hmem, rfl⟩, rfl⟩, hrank⟩, rfl⟩
    have hat : At records w i r' s := mem_contents.mp hmem
    refine ⟨⟨i, hat.lt, ?_⟩, rfl, rfl⟩
    rw [runKey_at hat hm, hrank]

/-- **A segment of the plan** shows its records by type. -/
theorem viewOf_eq : viewOf records w s = grouped (contents records w s) := by
  have hlt := (List.getElem?_eq_some_iff.mp hm).1
  have hrun : ∀ t, runOf records w ⟨s, m.rank t, t⟩ = runOfTag (contents records w s) t :=
    fun t => congrArg (Prod.mk t) (members_eq h hm t)
  have hhead : ∀ t, m.head = some t → m.rank t = .head := fun t ht => if_pos ht
  have htail : ∀ t, m.tail.filter (m.head != some ·) = some t → m.rank t = .tail := by
    intro t ht
    obtain ⟨h1, h2⟩ := Option.filter_eq_some_iff.mp ht
    rw [SegmentMeta.rank, if_neg (bne_iff_ne.mp h2), if_pos h1]
  unfold viewOf grouped
  rw [bodyKeys_eq h hm, headKey, tailKey, hm, ← head_eq h hlt hm, ← tailTag_eq h hm]
  simp only [Option.bind_some, Option.map_map, List.map_map]
  congr 1
  · refine Option.map_congr fun t ht => ?_
    rw [Function.comp_apply, ← hhead t ht, hrun]
  · refine List.map_congr_left fun t ht => ?_
    have hrank : m.rank t = .body := (rank_body_iff h hm t).mpr (by
      have ht := (List.mem_insertionSort _).mp ht
      simpa using (List.mem_filter.mp (List.mem_dedup.mp ht)).2)
    rw [Function.comp_apply, ← hrank, hrun]
  · refine Option.map_congr fun t ht => ?_
    rw [Function.comp_apply, ← htail t ht, hrun]

end View

/-- **The plan is the intended grouping**: of every key it shows its segments, each by type. -/
theorem segments_new [DecidableEq K] (records : List (PlanRecord K)) {kp : KeyPlan K}
    (hkp : kp ∈ (Plan.new records).keys) :
    ((Plan.new records).segmentsOf kp).map (Plan.new records).segmentView =
      (segmentsFor records kp.key).map grouped := by
  have h := ok_assignSegments records
  obtain ⟨hkeys, hviews⟩ := keys_built h (built_new records)
  obtain ⟨κ, hκ⟩ := List.getElem?_of_mem hkp
  obtain ⟨o, ho⟩ : ∃ o, (assignSegments records).slots kp.key = some (κ, o) := by
    have hk : ((assignSegments records).keys.map KeyPlan.key)[κ]? = some kp.key := by
      rw [← hkeys, List.getElem?_map, hκ]
      rfl
    rw [List.getElem?_map, Option.map_eq_some_iff] at hk
    obtain ⟨k, hk, hkey⟩ := hk
    exact hkey ▸ h.keys _ _ hk
  rw [hviews κ kp hκ, ← (cut_assignSegments records).segments _ _ _ ho, List.map_map]
  refine List.map_congr_left fun s hs => ?_
  obtain ⟨m, hm, -⟩ := mem_segmentsAt.mp hs
  exact viewOf_eq h hm

end Cuts

end Wakuwaku.Iggy.Partition
