import Wakuwaku.Iggy.Partition.Grouping

/-! # What the builder makes of the sorted indices

The scan over the sorted indices pushes one run for every run key (`scan_allRuns`). The builder
turns the runs of every segment into one `Segment`, whose ranges are counted off (`segmentValue`),
and extends the range of its key (`finish_pushRuns`). Read back through the accessors of `Plan`, the
plan of a batch lists for every key, in order of first appearance, the segments of that key with
their runs (`segmentsOf_new`). -/

namespace Wakuwaku.Iggy.Partition

open Wakuwaku.Iggy.Events

/-- The runs of a segment, each with its tag and the indices of its records. -/
structure SegmentView where
  head : Option (EventTypeTag × List ℕ)
  body : List (EventTypeTag × List ℕ)
  tail : Option (EventTypeTag × List ℕ)
  deriving DecidableEq, Repr

/-- A run read through its plan. -/
def Plan.runView {K : Type} (plan : Plan K) (run : Run) : EventTypeTag × List ℕ :=
  (run.tag, plan.records run)

/-- A segment read through its plan. -/
def Plan.segmentView {K : Type} (plan : Plan K) (segment : Segment) : SegmentView where
  head := (plan.head segment).map plan.runView
  body := (plan.body segment).map plan.runView
  tail := (plan.tail segment).map plan.runView

namespace Build

open Wakuwaku.Iggy.Partition.Segments Wakuwaku.Iggy.Partition.Grouping

variable {K : Type} {records : List (PlanRecord K)} {w : Walk K}

/-! ### The scan -/

variable (records w) in
/-- The runs of run keys, whose records start at a position. -/
def toRuns (start : ℕ) : List RunKey → List Run
  | [] => []
  | a :: as => ⟨a.tag, ⟨start, start + (members records w a).length⟩⟩ ::
      toRuns (start + (members records w a).length) as

variable (records w) in
/-- The builder after it was pushed the runs of run keys. -/
def pushRuns (b : Builder K) (start : ℕ) : List RunKey → Builder K
  | [] => b
  | a :: as => pushRuns (b.pushRun w.metas a.segment a.rank a.tag
      ⟨start, start + (members records w a).length⟩) (start + (members records w a).length) as

variable (records w) in
/-- One step of the scan. -/
def scanStep (s : Scan K) (p : ℕ × ℕ) : Scan K := s.step w.metas (runKey records w p.1) p.2

variable (records w) in
/-- How many records the runs hold. -/
def total (as : List RunKey) : ℕ := (as.flatMap (members records w)).length

@[simp] theorem total_nil : total records w [] = 0 := rfl

@[simp] theorem total_cons (a : RunKey) (as : List RunKey) :
    total records w (a :: as) = (members records w a).length + total records w as := by
  simp [total]

theorem total_append (as bs : List RunKey) :
    total records w (as ++ bs) = total records w as + total records w bs := by simp [total]

theorem length_toRuns (start : ℕ) (as : List RunKey) : (toRuns records w start as).length = as.length := by
  induction as generalizing start with
  | nil => rfl
  | cons a as ih => simp [toRuns, ih]

theorem toRuns_append (start : ℕ) (as bs : List RunKey) : toRuns records w start (as ++ bs) =
    toRuns records w start as ++ toRuns records w (start + total records w as) bs := by
  induction as generalizing start with
  | nil => simp [toRuns]
  | cons a as ih => simp [toRuns, ih, Nat.add_assoc]

theorem bounds_toRuns : ∀ (as : List RunKey) (start : ℕ), ∀ run ∈ toRuns records w start as,
    run.records.start ≤ run.records.stop ∧ run.records.stop ≤ start + total records w as
  | [], _, run, hrun => absurd hrun List.not_mem_nil
  | a :: as, start, run, hrun => by
    rw [total_cons]
    rcases List.mem_cons.mp hrun with rfl | hrun
    · exact ⟨Nat.le_add_right _ _, Nat.add_le_add_left (Nat.le_add_right _ _) _⟩
    · obtain ⟨h1, h2⟩ := bounds_toRuns as _ run hrun
      exact ⟨h1, by omega⟩

theorem pushRuns_append (b : Builder K) (start : ℕ) (as bs : List RunKey) :
    pushRuns records w b start (as ++ bs) =
      pushRuns records w (pushRuns records w b start as) (start + total records w as) bs := by
  induction as generalizing b start with
  | nil => simp [pushRuns]
  | cons a as ih => simp [pushRuns, ih, Nat.add_assoc]

/-- Indices of the run being scanned change nothing. -/
theorem scan_same {a : RunKey} {s : Scan K} (hs : s.run.any (·.1 = a) = true) :
    ∀ (l : List ℕ) (p : ℕ), (∀ i ∈ l, runKey records w i = a) →
      (l.zipIdx p).foldl (scanStep records w) s = s
  | [], _, _ => rfl
  | i :: l, p, hl => by
    have hi : scanStep records w s (i, p) = s := by
      simp only [scanStep, Scan.step, hl i (by simp), hs, ↓reduceIte]
    rw [List.zipIdx_cons, List.foldl_cons, hi]
    exact scan_same hs l (p + 1) fun j hj => hl j (by simp [hj])

/-- The indices of a new run push the one before it. -/
theorem scan_block {a : RunKey} {s : Scan K} (hs : s.run.any (·.1 = a) = false) {l : List ℕ}
    (hne : l ≠ []) (hl : ∀ i ∈ l, runKey records w i = a) (p : ℕ) :
    (l.zipIdx p).foldl (scanStep records w) s = ⟨s.flush w.metas p, some (a, p)⟩ := by
  obtain ⟨i, l, rfl⟩ := List.exists_cons_of_ne_nil hne
  have hi : scanStep records w s (i, p) = ⟨s.flush w.metas p, some (a, p)⟩ := by
    simp only [scanStep, Scan.step, hl i (by simp), hs, Bool.false_eq_true, ↓reduceIte]
  rw [List.zipIdx_cons, List.foldl_cons, hi]
  exact scan_same (by simp) l (p + 1) fun j hj => hl j (by simp [hj])

theorem scan_runs : ∀ (as : List RunKey) (s : Scan K) (a : RunKey) (start p : ℕ),
    (a :: as).Nodup → (∀ b ∈ as, members records w b ≠ []) → s.run = some (a, start) →
      p = start + (members records w a).length →
      (((as.flatMap (members records w)).zipIdx p).foldl (scanStep records w) s).flush w.metas
        (p + total records w as) = pushRuns records w s.builder start (a :: as)
  | [], s, a, start, p, _, _, hs, hp => by simp [pushRuns, Scan.flush, hs, hp]
  | b :: as, s, a, start, p, hnd, hne, hs, hp => by
    have hab : s.run.any (·.1 = b) = false := by
      rw [hs]; simp only [Option.any_some, decide_eq_false_iff_not]
      rintro rfl; simp at hnd
    rw [List.flatMap_cons, List.zipIdx_append, List.foldl_append,
      scan_block hab (hne b (by simp)) (fun i hi => (mem_members.mp hi).2), total_cons, ← Nat.add_assoc]
    rw [scan_runs as _ b p _ (List.nodup_cons.mp hnd).2 (fun c hc => hne c (by simp [hc])) rfl rfl]
    simp [pushRuns, Scan.flush, hs, hp]

/-- **The scan pushes the runs.** -/
theorem scan_allRuns (h : Ok records w) (b : Builder K) :
    ((((allRuns records w).flatMap (members records w)).zipIdx).foldl (scanStep records w)
      ⟨b, none⟩).flush w.metas ((allRuns records w).flatMap (members records w)).length =
      pushRuns records w b 0 (allRuns records w) := by
  have hnd := nodup_allRuns h
  have hne : ∀ a ∈ allRuns records w, members records w a ≠ [] := fun a ha => members_ne_nil h ha
  revert hnd hne
  cases allRuns records w with
  | nil => intro _ _; rfl
  | cons a as =>
    intro hnd hne
    have hlen : ((a :: as).flatMap (members records w)).length =
        (members records w a).length + total records w as := by simp [total]
    rw [hlen, List.flatMap_cons, List.zipIdx_append, List.foldl_append,
      scan_block (by simp) (hne a (by simp)) (fun i hi => (mem_members.mp hi).2), Nat.zero_add]
    rw [scan_runs as _ a 0 _ hnd (fun b hb => hne b (by simp [hb])) rfl (by simp)]
    rfl

/-! ### One segment -/

variable (records w) in
/-- The segment built from the runs of `s`, the first of them at `base`. -/
def segmentValue (base s : ℕ) : Segment where
  head := (headKey w s).map fun _ => base
  body := ⟨base + (headKey w s).toList.length,
    base + (headKey w s).toList.length + (bodyKeys records w s).length⟩
  tail := (tailKey w s).map fun _ =>
    base + (headKey w s).toList.length + (bodyKeys records w s).length

/-- The builder with the segment `s` begun. -/
def beginSegment (w : Walk K) (b : Builder K) (s : ℕ) : Builder K :=
  { b.finishSegment w.metas with
    opened := some (s, ⟨none, ⟨b.runs.length, b.runs.length⟩, none⟩) }

@[simp] theorem finishSegment_runs (b : Builder K) (metas : List SegmentMeta) :
    (b.finishSegment metas).runs = b.runs := by unfold Builder.finishSegment; split <;> rfl

@[simp] theorem finishSegment_opened (b : Builder K) (metas : List SegmentMeta) :
    (b.finishSegment metas).opened = none := by
  unfold Builder.finishSegment; split
  · assumption
  · rfl

/-- The first run of a segment finishes the one before it. -/
theorem pushRun_begin {b : Builder K} {s : ℕ} (hb : b.opened.all (·.1 != s) = true) (rank : Rank)
    (tag : EventTypeTag) (rg : Range) : b.pushRun w.metas s rank tag rg =
      (beginSegment w b s).pushRun w.metas s rank tag rg := by
  cases ho : b.opened with
  | none => simp [Builder.pushRun, beginSegment, Builder.finishSegment, ho]
  | some p =>
    rw [ho] at hb
    simp only [Option.all_some] at hb
    simp [Builder.pushRun, beginSegment, ho, hb]

/-- A further run of the segment being built. -/
theorem pushRun_opened {b : Builder K} {s : ℕ} {seg : Segment} (hb : b.opened = some (s, seg))
    (rank : Rank) (tag : EventTypeTag) (rg : Range) : b.pushRun w.metas s rank tag rg =
      { b with runs := b.runs ++ [⟨tag, rg⟩], opened := some (s, seg.place rank b.runs.length) } := by
  simp [Builder.pushRun, hb]

theorem push_bodies {s : ℕ} : ∀ (as : List RunKey) (b : Builder K) (start : ℕ) (hd : Option ℕ)
    (x : ℕ), (∀ a ∈ as, a.segment = s ∧ a.rank = .body) →
      b.opened = some (s, ⟨hd, ⟨x, b.runs.length⟩, none⟩) →
      pushRuns records w b start as =
        { b with
          runs := b.runs ++ toRuns records w start as
          opened := some (s, ⟨hd, ⟨x, b.runs.length + as.length⟩, none⟩) }
  | [], b, start, hd, x, _, hb => by
    simp only [pushRuns, toRuns, List.append_nil, List.length_nil, Nat.add_zero, ← hb]
  | a :: as, b, start, hd, x, has, hb => by
    obtain ⟨h1, h2⟩ := has a (by simp)
    rw [pushRuns, h1, h2, pushRun_opened hb, push_bodies as _ _ hd x
      (fun c hc => has c (by simp [hc])) (by simp [Segment.place])]
    simp [toRuns, Nat.add_comm, Nat.add_left_comm]

theorem push_segment (b : Builder K) (start s : ℕ) :
    pushRuns records w (beginSegment w b s) start (runKeys records w s) =
      { b.finishSegment w.metas with
        runs := b.runs ++ toRuns records w start (runKeys records w s)
        opened := some (s, segmentValue records w b.runs.length s) } := by
  -- the head run
  have hhead : pushRuns records w (beginSegment w b s) start (headKey w s).toList =
      { b.finishSegment w.metas with
        runs := b.runs ++ toRuns records w start (headKey w s).toList
        opened := some (s, ⟨(headKey w s).map fun _ => b.runs.length,
          ⟨b.runs.length + (headKey w s).toList.length,
            b.runs.length + (headKey w s).toList.length⟩, none⟩) } := by
    cases hk : headKey w s with
    | none => simp [pushRuns, toRuns, beginSegment]
    | some a =>
      obtain ⟨m, t, -, -, rfl⟩ := mem_headKey.mp hk
      simp only [Option.toList_some, pushRuns, toRuns, Option.map_some, List.length_singleton]
      rw [pushRun_opened rfl]
      simp [beginSegment, Segment.place]
  -- the body runs
  have hbody := @push_bodies _ records w s (bodyKeys records w s)
    { b.finishSegment w.metas with
      runs := b.runs ++ toRuns records w start (headKey w s).toList
      opened := some (s, ⟨(headKey w s).map fun _ => b.runs.length,
        ⟨b.runs.length + (headKey w s).toList.length,
          b.runs.length + (headKey w s).toList.length⟩, none⟩) }
    (start + total records w (headKey w s).toList) ((headKey w s).map fun _ => b.runs.length)
    (b.runs.length + (headKey w s).toList.length)
    (fun a ha => ⟨(mem_bodyKeys.mp ha).2.1, (mem_bodyKeys.mp ha).2.2⟩)
    (by simp [length_toRuns])
  -- the tail run
  unfold runKeys
  rw [pushRuns_append, pushRuns_append, hhead, hbody, toRuns_append, toRuns_append]
  cases hk : tailKey w s with
  | none => simp [pushRuns, toRuns, segmentValue, hk, length_toRuns, Nat.add_assoc]
  | some a =>
    obtain ⟨m, t, -, -, -, rfl⟩ := mem_tailKey.mp hk
    simp only [Option.toList_some, pushRuns, toRuns]
    rw [pushRun_opened rfl]
    simp [segmentValue, hk, length_toRuns, Segment.place, Nat.add_assoc, total_append]

/-! ### All segments -/

variable (records w) in
/-- The segments built from `ss`, the first run of them at `base`. -/
def segmentsFrom (base : ℕ) : List ℕ → List Segment
  | [] => []
  | s :: ss => segmentValue records w base s ::
      segmentsFrom (base + (runKeys records w s).length) ss

/-- The keys after the segments `ss`, the first of them at `index`, were finished. -/
def extendKeys (w : Walk K) (keys : List (KeyPlan K)) (index : ℕ) : List ℕ → List (KeyPlan K)
  | [] => keys
  | s :: ss => extendKeys w (match w.metas[s]? with
      | some m => keys.modify m.key (KeyPlan.extend index)
      | none => keys) (index + 1) ss

theorem length_segmentsFrom (base : ℕ) (ss : List ℕ) :
    (segmentsFrom records w base ss).length = ss.length := by
  induction ss generalizing base with
  | nil => rfl
  | cons s ss ih => simp [segmentsFrom, ih]

theorem segmentsFrom_append (base : ℕ) (ss ss' : List ℕ) : segmentsFrom records w base (ss ++ ss') =
    segmentsFrom records w base ss ++
      segmentsFrom records w (base + (ss.flatMap (runKeys records w)).length) ss' := by
  induction ss generalizing base with
  | nil => simp [segmentsFrom]
  | cons s ss ih => simp [segmentsFrom, ih, Nat.add_assoc]

theorem extendKeys_append (keys : List (KeyPlan K)) (index : ℕ) (ss ss' : List ℕ) :
    extendKeys w keys index (ss ++ ss') =
      extendKeys w (extendKeys w keys index ss) (index + ss.length) ss' := by
  induction ss generalizing keys index with
  | nil => rfl
  | cons s ss ih => simp only [List.cons_append, extendKeys, ih, List.length_cons]; congr 1; omega

theorem opened_push_segment (b : Builder K) (start s : ℕ) :
    (pushRuns records w (beginSegment w b s) start (runKeys records w s)).opened =
      some (s, segmentValue records w b.runs.length s) := by
  rw [push_segment]

/-- Finishing takes in the open segment. -/
theorem finishSegment_of_opened {b : Builder K} {m : ℕ} {segment : Segment} (metas : List SegmentMeta)
    (h : b.opened = some (m, segment)) : b.finishSegment metas =
      { runs := b.runs
        segments := b.segments ++ [segment]
        keys := match metas[m]? with
          | some meta' => b.keys.modify meta'.key (KeyPlan.extend b.segments.length)
          | none => b.keys
        opened := none } := by
  cases b
  cases h
  rfl

/-- **Finishing the runs of segments.** -/
theorem finish_pushRuns : ∀ (ss : List ℕ) (b : Builder K) (start : ℕ), ss.Nodup →
    (∀ s ∈ ss, runKeys records w s ≠ []) → (∀ s ∈ ss, b.opened.all (·.1 != s) = true) →
      (∀ s ∈ ss, ∀ a ∈ runKeys records w s, a.segment = s) →
      (pushRuns records w b start (ss.flatMap (runKeys records w))).finishSegment w.metas =
        { runs := b.runs ++ toRuns records w start (ss.flatMap (runKeys records w))
          segments := (b.finishSegment w.metas).segments ++ segmentsFrom records w b.runs.length ss
          keys := extendKeys w (b.finishSegment w.metas).keys (b.finishSegment w.metas).segments.length ss
          opened := none }
  | [], b, start, _, _, _, _ => by
    have := finishSegment_runs b w.metas
    have := finishSegment_opened b w.metas
    generalize hf : b.finishSegment w.metas = f at *
    cases f
    simp_all [pushRuns, toRuns, segmentsFrom, extendKeys]
  | s :: ss, b, start, hnd, hne, hb, hseg => by
    obtain ⟨hs, hnd'⟩ := List.nodup_cons.mp hnd
    have hbegin : pushRuns records w b start (runKeys records w s) =
        pushRuns records w (beginSegment w b s) start (runKeys records w s) := by
      obtain ⟨a, as, he⟩ := List.exists_cons_of_ne_nil (hne s (by simp))
      have ha : a.segment = s := hseg s (by simp) a (by rw [he]; simp)
      rw [he, pushRuns, pushRuns, ha, pushRun_begin (hb s (by simp))]
    have hfresh : ∀ s' ∈ ss, (pushRuns records w b start (runKeys records w s)).opened.all
        (·.1 != s') = true := by
      intro s' hs'
      rw [hbegin, opened_push_segment]
      simp only [Option.all_some, bne_iff_ne]
      rintro rfl; exact hs hs'
    rw [List.flatMap_cons, pushRuns_append, finish_pushRuns ss _ _ hnd'
      (fun s' hs' => hne s' (by simp [hs'])) hfresh (fun s' hs' => hseg s' (by simp [hs'])), hbegin,
      finishSegment_of_opened w.metas (opened_push_segment b start s), push_segment]
    simp only [toRuns_append, segmentsFrom, extendKeys, List.append_assoc, List.length_append,
      length_toRuns, List.length_singleton, List.cons_append, List.nil_append]

/-! ### The ranges of the keys -/

theorem extendKeys_group {κ a : ℕ} {k : K} : ∀ (ss : List ℕ) (keys : List (KeyPlan K)) (index : ℕ),
    (∀ s ∈ ss, s ∈ segmentsAt w κ) → keys[κ]? = some ⟨k, ⟨a, index⟩⟩ → a < index →
      extendKeys w keys index ss = keys.set κ ⟨k, ⟨a, index + ss.length⟩⟩
  | [], keys, index, _, hk, _ => by
    obtain ⟨hlt, hk⟩ := List.getElem?_eq_some_iff.mp hk
    simp [extendKeys, ← hk]
  | s :: ss, keys, index, hss, hk, ha => by
    obtain ⟨m, hm, hκ⟩ := mem_segmentsAt.mp (hss s (by simp))
    obtain ⟨hlt, hk'⟩ := List.getElem?_eq_some_iff.mp hk
    have hmod : keys.modify κ (KeyPlan.extend index) = keys.set κ ⟨k, ⟨a, index + 1⟩⟩ := by
      rw [List.modify_eq_set_getElem?, hk]
      simp [KeyPlan.extend, ha.ne]
    rw [extendKeys, hm]
    simp only [hκ, hmod]
    rw [extendKeys_group ss _ (index + 1) (fun s' hs' => hss s' (by simp [hs']))
      (by rw [List.getElem?_set_self hlt]) (by omega)]
    simp [Nat.add_comm, Nat.add_left_comm]

/-- A key whose range is empty gets the range of its segments. -/
theorem extendKeys_key {κ : ℕ} {k : K} {ss : List ℕ} (hne : ss ≠ []) (keys : List (KeyPlan K))
    (index : ℕ) (hss : ∀ s ∈ ss, s ∈ segmentsAt w κ) (hk : keys[κ]? = some ⟨k, ⟨0, 0⟩⟩) :
    extendKeys w keys index ss = keys.set κ ⟨k, ⟨index, index + ss.length⟩⟩ := by
  obtain ⟨s, ss, rfl⟩ := List.exists_cons_of_ne_nil hne
  obtain ⟨m, hm, hκ⟩ := mem_segmentsAt.mp (hss s (by simp))
  obtain ⟨hlt, hk'⟩ := List.getElem?_eq_some_iff.mp hk
  have hmod : keys.modify κ (KeyPlan.extend index) = keys.set κ ⟨k, ⟨index, index + 1⟩⟩ := by
    rw [List.modify_eq_set_getElem?, hk]
    simp [KeyPlan.extend]
  rw [extendKeys, hm]
  simp only [hκ, hmod]
  rw [extendKeys_group ss _ (index + 1) (fun s' hs' => hss s' (by simp [hs']))
    (by rw [List.getElem?_set_self hlt]) (by omega)]
  simp [Nat.add_comm, Nat.add_left_comm]

section Ok

variable (h : Ok records w)
include h

theorem segmentsAt_ne_nil {κ : ℕ} (hκ : κ < w.keys.length) : segmentsAt w κ ≠ [] := by
  obtain ⟨o, ho⟩ := h.keys κ _ (List.getElem?_eq_getElem hκ)
  have hex : ∃ r ∈ records, r.key = w.keys[κ].key := by
    by_contra hc
    push Not at hc
    rw [(h.slots _).mpr hc] at ho
    cases ho
  obtain ⟨r, hr, hk⟩ := hex
  obtain ⟨i, hi, rfl⟩ := List.getElem_of_mem hr
  obtain ⟨s, hs⟩ := exists_at h (List.getElem?_eq_getElem hi)
  obtain ⟨m, o', hm, ho'⟩ := h.seg _ _ _ hs
  rw [hk, ho] at ho'
  obtain ⟨hmk, -⟩ := Prod.mk.injEq .. ▸ Option.some.inj ho'
  exact List.ne_nil_of_mem (mem_segmentsAt.mpr ⟨m, hm, hmk.symm⟩)

theorem keys_blank {κ : ℕ} (hκ : κ < w.keys.length) : w.keys[κ]? = some ⟨w.keys[κ].key, ⟨0, 0⟩⟩ := by
  obtain ⟨o, ho⟩ := h.keys κ _ (List.getElem?_eq_getElem hκ)
  exact h.index _ _ _ ho

variable (w) in
omit h in
/-- Where the segments of the key at an index start. -/
def keyStart (κ : ℕ) : ℕ := ((List.range κ).flatMap (segmentsAt w)).length

theorem extendKeys_range (n : ℕ) (hn : n ≤ w.keys.length) (κ : ℕ) (hκ : κ < w.keys.length) :
    (extendKeys w w.keys 0 ((List.range n).flatMap (segmentsAt w)))[κ]? =
      some ⟨w.keys[κ].key, if κ < n then ⟨keyStart w κ, keyStart w κ + (segmentsAt w κ).length⟩
        else ⟨0, 0⟩⟩ := by
  induction n generalizing κ with
  | zero => simpa [extendKeys] using keys_blank h hκ
  | succ n ih =>
    have hn' : n < w.keys.length := hn
    have hat := ih (by omega) n hn'
    simp only [lt_self_iff_false, ↓reduceIte] at hat
    rw [List.range_succ, List.flatMap_append, extendKeys_append, List.flatMap_singleton,
      extendKeys_key (segmentsAt_ne_nil h hn') _ _ (fun s hs => hs) hat]
    rcases eq_or_ne n κ with rfl | hne
    · rw [List.getElem?_set_self (List.getElem?_eq_some_iff.mp hat).1]
      simp [keyStart]
    · rw [List.getElem?_set_ne hne, ih (by omega) κ hκ]
      have : κ < n ↔ κ < n + 1 := by omega
      simp only [this]

end Ok

/-! ### The plan -/

theorem slice_append {α : Type} (l₁ l₂ l₃ : List α) :
    (⟨l₁.length, l₁.length + l₂.length⟩ : Range).slice (l₁ ++ (l₂ ++ l₃)) = l₂ := by
  simp [Range.slice]

variable (records w) in
/-- A run key as the plan shows it. -/
def runOf (a : RunKey) : EventTypeTag × List ℕ := (a.tag, members records w a)

variable (records w) in
/-- A segment as the plan shows it. -/
def viewOf (s : ℕ) : SegmentView where
  head := (headKey w s).map (runOf records w)
  body := (bodyKeys records w s).map (runOf records w)
  tail := (tailKey w s).map (runOf records w)

/-- The plan built from the runs `allRuns`. -/
structure Built (plan : Plan K) (records : List (PlanRecord K)) (w : Walk K) : Prop where
  order : plan.order = (allRuns records w).flatMap (members records w)
  runs : plan.runs = toRuns records w 0 (allRuns records w)
  segments : plan.segments = segmentsFrom records w 0 (allSegments w)
  keys : plan.keys = extendKeys w w.keys 0 (allSegments w)

theorem built_new [DecidableEq K] (records : List (PlanRecord K)) :
    Built (Plan.new records) records (assignSegments records) := by
  have h := ok_assignSegments records
  set w := assignSegments records with hw
  have hnew : Plan.new records =
      let order := (List.range records.length).insertionSort
        fun i j => sortKey records w i ≤ sortKey records w j
      let b := ((order.zipIdx.foldl (scanStep records w) ⟨⟨[], [], w.keys, none⟩, none⟩).flush w.metas
        order.length).finishSegment w.metas
      ⟨order, b.runs, b.segments, b.keys⟩ := rfl
  have hfin := @finish_pushRuns _ records w (allSegments w)
    ⟨[], [], w.keys, none⟩ 0 nodup_allSegments (fun s hs => runKeys_ne_nil h hs) (fun _ _ => rfl)
    (fun s _ a ha => ((mem_runKeys h).mp ha).2)
  rw [hnew, order_eq h]
  simp only [scan_allRuns h]
  unfold allRuns at *
  rw [hfin]
  exact ⟨rfl, rfl, rfl, rfl⟩

section View

variable {plan : Plan K} (h : Ok records w) (hb : Built plan records w)
include hb

omit hb in
theorem map_toRuns (post : List ℕ) : ∀ (as : List RunKey) (pre : List ℕ),
    (toRuns records w pre.length as).map (fun run => (run.tag,
      run.records.slice (pre ++ (as.flatMap (members records w) ++ post)))) = as.map (runOf records w)
  | [], _ => rfl
  | a :: as, pre => by
    have ih := map_toRuns post as (pre ++ members records w a)
    simp only [List.length_append, List.append_assoc] at ih
    simp only [toRuns, List.map_cons, List.flatMap_cons, List.append_assoc, slice_append, ih]
    rfl

/-- The runs of run keys show their records. -/
theorem map_runView {as₁ as as₂ : List RunKey} (ha : allRuns records w = as₁ ++ (as ++ as₂)) :
    (toRuns records w (total records w as₁) as).map plan.runView = as.map (runOf records w) := by
  have := @map_toRuns _ records w (as₂.flatMap (members records w)) as
    (as₁.flatMap (members records w))
  have hview : plan.runView = fun run => (run.tag, run.records.slice plan.order) := rfl
  rw [hview, hb.order, ha, List.flatMap_append, List.flatMap_append]
  exact this

/-- The segment built at the place of `s` shows the runs of `s`. -/
theorem segmentView_segmentValue {ss₁ ss₂ : List ℕ} {s : ℕ} (hs : allSegments w = ss₁ ++ s :: ss₂) :
    plan.segmentView (segmentValue records w (ss₁.flatMap (runKeys records w)).length s) =
      viewOf records w s := by
  set as₁ := ss₁.flatMap (runKeys records w) with has₁
  set as₂ := ss₂.flatMap (runKeys records w)
  set hd := (headKey w s).toList with hhd
  set bd := bodyKeys records w s with hbd
  set tl := (tailKey w s).toList with htl
  have hall : allRuns records w = as₁ ++ (hd ++ (bd ++ (tl ++ as₂))) := by
    simp [allRuns, hs, has₁, runKeys, hhd, hbd, htl, as₂]
  -- the runs of the plan, split at the parts of `s`
  have hruns : plan.runs = toRuns records w 0 as₁ ++ (toRuns records w (total records w as₁) hd ++
      (toRuns records w (total records w (as₁ ++ hd)) bd ++
        (toRuns records w (total records w (as₁ ++ hd ++ bd)) tl ++
          toRuns records w (total records w (as₁ ++ hd ++ bd ++ tl)) as₂))) := by
    rw [hb.runs, hall]
    simp only [toRuns_append, total_append, Nat.zero_add, Nat.add_assoc]
  have vhd := @map_runView _ records w plan hb as₁ hd (bd ++ (tl ++ as₂)) hall
  have vbd := @map_runView _ records w plan hb (as₁ ++ hd) bd (tl ++ as₂) (by rw [hall]; simp)
  have vtl := @map_runView _ records w plan hb (as₁ ++ hd ++ bd) tl as₂ (by rw [hall]; simp)
  have l₁ := @length_toRuns _ records w 0 as₁
  have l₂ := @length_toRuns _ records w (total records w as₁) hd
  have l₃ := @length_toRuns _ records w (total records w (as₁ ++ hd)) bd
  revert vhd vbd vtl hruns l₁ l₂ l₃
  generalize toRuns records w 0 as₁ = R₁
  generalize toRuns records w (total records w as₁) hd = Rhd
  generalize toRuns records w (total records w (as₁ ++ hd)) bd = Rbd
  generalize toRuns records w (total records w (as₁ ++ hd ++ bd)) tl = Rtl
  generalize toRuns records w (total records w (as₁ ++ hd ++ bd ++ tl)) as₂ = R₂
  intro hruns vhd vbd vtl l₁ l₂ l₃
  simp only [Plan.segmentView, viewOf, segmentValue, SegmentView.mk.injEq, ← hhd, ← hbd, ← l₁]
  refine ⟨?_, ?_, ?_⟩
  · simp only [Plan.head, hruns]
    cases hk : headKey w s with
    | none => rfl
    | some a =>
      simp only [hhd, hk, Option.toList_some, List.map_cons, List.map_nil] at vhd
      obtain ⟨run, rfl, hv⟩ := List.map_eq_singleton_iff.mp vhd
      simp [hv]
  · rw [← l₂, ← l₃, ← vbd]
    simp only [Plan.body, hruns]
    rw [← List.append_assoc R₁, ← List.length_append, slice_append]
  · simp only [Plan.tail, hruns]
    cases hk : tailKey w s with
    | none => rfl
    | some a =>
      simp only [htl, hk, Option.toList_some, List.map_cons, List.map_nil] at vtl
      obtain ⟨run, rfl, hv⟩ := List.map_eq_singleton_iff.mp vtl
      rw [← l₂, ← l₃, ← List.append_assoc R₁, ← List.append_assoc (R₁ ++ Rhd), ← List.length_append,
        ← List.length_append]
      simp [hv]

theorem map_segmentView : ∀ (ss ss₁ ss₂ : List ℕ), allSegments w = ss₁ ++ (ss ++ ss₂) →
    (segmentsFrom records w (ss₁.flatMap (runKeys records w)).length ss).map plan.segmentView =
      ss.map (viewOf records w)
  | [], _, _, _ => rfl
  | s :: ss, ss₁, ss₂, hss => by
    have ih := map_segmentView ss (ss₁ ++ [s]) ss₂ (by rw [hss]; simp)
    simp only [List.flatMap_append, List.flatMap_singleton, List.length_append] at ih
    rw [segmentsFrom, List.map_cons, List.map_cons, ih,
      @segmentView_segmentValue _ records w plan hb ss₁ (ss ++ ss₂) s (by rw [hss]; simp)]

include h

/-- **The plan of a batch** lists the keys of the walk, and shows of every key its segments. -/
theorem keys_built : plan.keys.map KeyPlan.key = w.keys.map KeyPlan.key ∧
    ∀ κ kp, plan.keys[κ]? = some kp →
      (plan.segmentsOf kp).map plan.segmentView = (segmentsAt w κ).map (viewOf records w) := by
  have hlen : plan.keys.length = w.keys.length := by
    have hext : ∀ (ss : List ℕ) (keys : List (KeyPlan K)) (index : ℕ),
        (extendKeys w keys index ss).length = keys.length := by
      intro ss
      induction ss with
      | nil => intro _ _; rfl
      | cons s ss ih => intro keys index; rw [extendKeys, ih]; split <;> simp
    rw [hb.keys, hext]
  have hkey : ∀ κ (hκ : κ < w.keys.length), plan.keys[κ]? =
      some ⟨w.keys[κ].key, ⟨keyStart w κ, keyStart w κ + (segmentsAt w κ).length⟩⟩ := by
    intro κ hκ
    rw [hb.keys, allSegments, extendKeys_range h _ le_rfl κ hκ, if_pos hκ]
  refine ⟨List.ext_getElem (by simp [hlen]) fun κ h1 h2 => ?_, fun κ kp hkp => ?_⟩
  · simp only [List.length_map] at h1 h2
    have := hkey κ h2
    rw [List.getElem?_eq_getElem h1] at this
    simp [Option.some.inj this]
  · have hκ : κ < w.keys.length := hlen ▸ (List.getElem?_eq_some_iff.mp hkp).1
    rw [hkey κ hκ] at hkp
    obtain rfl := Option.some.inj hkp
    -- the segments before, of, and after the key
    obtain ⟨n, hn⟩ : ∃ n, w.keys.length = κ + 1 + n := ⟨w.keys.length - (κ + 1), by omega⟩
    have hsplit : allSegments w = (List.range κ).flatMap (segmentsAt w) ++ (segmentsAt w κ ++
        ((List.range n).map (κ + 1 + ·)).flatMap (segmentsAt w)) := by
      rw [allSegments, hn, List.range_add, List.range_succ]
      simp
    have hview := map_segmentView hb _ _ _ hsplit
    have hl := @length_segmentsFrom _ records w 0 ((List.range κ).flatMap (segmentsAt w))
    have hl' := @length_segmentsFrom _ records w
      (((List.range κ).flatMap (segmentsAt w)).flatMap (runKeys records w)).length (segmentsAt w κ)
    rw [← hview, Plan.segmentsOf, hb.segments, hsplit, segmentsFrom_append, segmentsFrom_append,
      keyStart, ← hl, ← hl']
    simp only [Nat.zero_add]
    rw [slice_append]

end View

end Build

end Wakuwaku.Iggy.Partition
