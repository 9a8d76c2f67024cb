import Wakuwaku.Iggy.Partition.Plan
import Mathlib.Data.List.Induction

/-! # What the walk over the log establishes

`Walk.Ok pre w` says what the state `w` of the walk means after the records `pre`: which records a
segment holds (`At`), that its metadata describes exactly these records, and that a fence bounds
its segment. It holds at the start (`ok_start`) and is kept by every record (`ok_step`), so it holds
of `assignSegments` (`ok_assignSegments`). -/

namespace Wakuwaku.Iggy.Partition.Segments

open Wakuwaku.Iggy.Events Wakuwaku.Iggy.Partition

variable {K : Type}

/-- Record `i` is `r`, and the walk gave it the segment `s`. -/
def At (pre : List (PlanRecord K)) (w : Walk K) (i : ℕ) (r : PlanRecord K) (s : ℕ) : Prop :=
  pre[i]? = some r ∧ w.segmentOf[i]? = some s

/-- The metadata `m` describes the records of the segment `s`. -/
structure Describes (pre : List (PlanRecord K)) (w : Walk K) (s : ℕ) (m : SegmentMeta) : Prop where
  head : ∀ t, m.head = some t ↔ ∃ i r, At pre w i r s ∧ r.ordering.acquires = true ∧ r.tag = t
  tail : ∀ t, m.tail = some t ↔ ∃ i r, At pre w i r s ∧ r.ordering = .release ∧ r.tag = t
  mixed : m.mixed = true ↔ ∃ h, m.head = some h ∧ ∃ i r, At pre w i r s ∧ r.tag ≠ h

/-- **The invariant of the walk.** -/
structure Ok (pre : List (PlanRecord K)) (w : Walk K) : Prop where
  len : w.segmentOf.length = pre.length
  slots : ∀ k, w.slots k = none ↔ ∀ r ∈ pre, r.key ≠ k
  index : ∀ k κ o, w.slots k = some (κ, o) → w.keys[κ]? = some ⟨k, ⟨0, 0⟩⟩
  keys : ∀ κ k, w.keys[κ]? = some k → ∃ o, w.slots k.key = some (κ, o)
  seg : ∀ i r s, At pre w i r s → ∃ m o, w.metas[s]? = some m ∧ w.slots r.key = some (m.key, o)
  nonempty : ∀ s < w.metas.length, ∃ i r, At pre w i r s
  mono : ∀ i j r r' s s', At pre w i r s → At pre w j r' s' → r.key = r'.key → i ≤ j → s ≤ s'
  /-- A record that acquires is the first of its segment. -/
  first : ∀ i j r r' s, At pre w i r s → At pre w j r' s → i < j → r'.ordering.acquires = false
  /-- A `Release` record is the last of its segment. -/
  last : ∀ i j r r' s, At pre w i r s → At pre w j r' s → i < j → r.ordering ≠ .release
  describes : ∀ s m, w.metas[s]? = some m → Describes pre w s m
  /-- A `Release` record of the head type ends a segment of that type only. -/
  own : ∀ i r s m, At pre w i r s → r.ordering = .release → w.metas[s]? = some m →
    m.head = some r.tag → m.mixed = false
  opened : ∀ k κ s, w.slots k = some (κ, some s) → (∃ m, w.metas[s]? = some m ∧ m.key = κ) ∧
    (∀ i r, At pre w i r s → r.ordering ≠ .release) ∧
    ∀ i r s', At pre w i r s' → r.key = k → s' ≤ s

section Basic

variable {pre : List (PlanRecord K)} {w : Walk K} {i j s : ℕ} {r r' : PlanRecord K}

theorem At.record_eq {s' : ℕ} (h : At pre w i r s) (h' : At pre w i r' s') : r = r' ∧ s = s' := by
  have h1 := h.1.symm.trans h'.1
  have h2 := h.2.symm.trans h'.2
  exact ⟨Option.some.inj h1, Option.some.inj h2⟩

theorem At.lt (h : At pre w i r s) : i < pre.length := (List.getElem?_eq_some_iff.mp h.1).1

theorem exists_at (h : Ok pre w) (hi : pre[i]? = some r) : ∃ s, At pre w i r s := by
  have hlt := (List.getElem?_eq_some_iff.mp hi).1
  rw [← h.len] at hlt
  exact ⟨w.segmentOf[i], hi, List.getElem?_eq_getElem hlt⟩

theorem ok_start [DecidableEq K] : Ok ([] : List (PlanRecord K)) Walk.start := by
  constructor <;> simp [Walk.start, At]

end Basic

/-! ### One record -/

section Step

variable [DecidableEq K] {pre : List (PlanRecord K)} {w : Walk K} (r₀ : PlanRecord K)

/-- **What one record does**: it goes to the segment `s₀` that `m₀` described so far, which is the
open segment of its key unless that is cut off, else a new one. -/
structure Stepped (pre : List (PlanRecord K)) (w w' : Walk K) (r₀ : PlanRecord K) (κ s₀ : ℕ)
    (m₀ : SegmentMeta) : Prop where
  segmentOf : w'.segmentOf = w.segmentOf ++ [s₀]
  slots : w'.slots = Function.update w.slots r₀.key
    (some (κ, if r₀.ordering = .release then none else some s₀))
  metas : ∀ s, w'.metas[s]? = if s = s₀ then some (m₀.accept r₀.tag r₀.ordering) else w.metas[s]?
  length : w'.metas.length = max w.metas.length (s₀ + 1)
  key : m₀.key = κ
  keys : (∃ o, w.slots r₀.key = some (κ, o)) ∧ w'.keys = w.keys ∨
    w.slots r₀.key = none ∧ κ = w.keys.length ∧ w'.keys = w.keys ++ [⟨r₀.key, ⟨0, 0⟩⟩]
  target : w.slots r₀.key = some (κ, some s₀) ∧ w.metas[s₀]? = some m₀ ∧
      m₀.cut r₀.tag r₀.ordering = false ∨
    s₀ = w.metas.length ∧ m₀ = ⟨κ, none, none, false⟩

theorem stepped (h : Ok pre w) : ∃ κ s₀ m₀, Stepped pre w (w.step r₀) r₀ κ s₀ m₀ := by
  -- the slot of the key
  obtain ⟨κ, o, keys', hslot, hkeys⟩ : ∃ κ o keys', w.slot r₀.key = (κ, o, keys') ∧
      (w.slots r₀.key = some (κ, o) ∧ keys' = w.keys ∨
        w.slots r₀.key = none ∧ κ = w.keys.length ∧ o = none ∧
          keys' = w.keys ++ [⟨r₀.key, ⟨0, 0⟩⟩]) := by
    unfold Walk.slot
    cases hs : w.slots r₀.key with
    | none => exact ⟨_, _, _, rfl, Or.inr ⟨rfl, rfl, rfl, rfl⟩⟩
    | some p => exact ⟨p.1, p.2, _, rfl, Or.inl ⟨rfl, rfl⟩⟩
  have hk : (∃ o, w.slots r₀.key = some (κ, o)) ∧ keys' = w.keys ∨
      w.slots r₀.key = none ∧ κ = w.keys.length ∧ keys' = w.keys ++ [⟨r₀.key, ⟨0, 0⟩⟩] := by
    rcases hkeys with ⟨h1, h2⟩ | ⟨h1, h2, -, h3⟩
    · exact Or.inl ⟨⟨o, h1⟩, h2⟩
    · exact Or.inr ⟨h1, h2, h3⟩
  -- the target: an open segment that is not cut off, else a new one
  cases hf : o.filter fun s => !(w.metas[s]?).any (·.cut r₀.tag r₀.ordering) with
  | none =>
    refine ⟨κ, w.metas.length, ⟨κ, none, none, false⟩, ?_⟩
    refine ⟨?_, ?_, ?_, ?_, rfl, ?_, Or.inr ⟨rfl, rfl⟩⟩
    · simp [Walk.step, hslot, Walk.target, hf]
    · simp [Walk.step, hslot, Walk.target, hf]
    · intro s
      simp only [Walk.step, hslot, Walk.target, hf, List.getElem?_modify, List.getElem?_append,
        List.getElem?_singleton]
      rcases Nat.lt_trichotomy s w.metas.length with hs | hs | hs
      · simp [hs, Nat.ne_of_lt hs, Nat.ne_of_gt hs]
      · simp [hs]
      · simp [Nat.not_lt.mpr hs.le, Nat.ne_of_gt hs, Nat.ne_of_lt hs, Nat.sub_ne_zero_of_lt hs]
    · simp [Walk.step, hslot, Walk.target, hf]
    · simpa [Walk.step, hslot] using hk
  | some s₀ =>
    obtain ⟨rfl, hcut⟩ := Option.filter_eq_some_iff.mp hf
    have hsl : w.slots r₀.key = some (κ, some s₀) := by
      rcases hkeys with ⟨h1, -⟩ | ⟨-, -, h1, -⟩
      · exact h1
      · cases h1
    obtain ⟨⟨m₀, hm₀, hκ⟩, -, -⟩ := h.opened _ _ _ hsl
    have hlt := (List.getElem?_eq_some_iff.mp hm₀).1
    refine ⟨κ, s₀, m₀, ?_, ?_, ?_, ?_, hκ, ?_, Or.inl ⟨hsl, hm₀, ?_⟩⟩
    · simp [Walk.step, hslot, Walk.target, hf]
    · simp [Walk.step, hslot, Walk.target, hf]
    · intro s
      simp only [Walk.step, hslot, Walk.target, hf, List.getElem?_modify]
      rcases eq_or_ne s s₀ with rfl | hs
      · simp [hm₀]
      · simp [hs, hs.symm]
    · simp [Walk.step, hslot, Walk.target, hf]; omega
    · simpa [Walk.step, hslot] using hk
    · simpa [hm₀] using hcut

section Preserve

variable {r₀} {w' : Walk K} {κ s₀ : ℕ} {m₀ : SegmentMeta} (h : Ok pre w)
  (hs : Stepped pre w w' r₀ κ s₀ m₀)
include h hs

theorem at_step {i s : ℕ} {r : PlanRecord K} : At (pre ++ [r₀]) w' i r s ↔
    At pre w i r s ∨ i = pre.length ∧ r = r₀ ∧ s = s₀ := by
  unfold At
  rw [hs.segmentOf]
  rcases Nat.lt_trichotomy i pre.length with hi | rfl | hi
  · rw [List.getElem?_append_left hi, List.getElem?_append_left (by rw [h.len]; exact hi)]
    simp [hi.ne]
  · rw [List.getElem?_concat_length, ← h.len, List.getElem?_concat_length,
      List.getElem?_eq_none (l := w.segmentOf) le_rfl]
    simp [eq_comm]
  · rw [List.getElem?_eq_none (by simp; omega), List.getElem?_eq_none (l := pre) hi.le]
    simp [hi.ne']

/-- No record of the segment taken was a `Release`, and all are of the key. -/
theorem prior_target {i : ℕ} {r : PlanRecord K} (hi : At pre w i r s₀) :
    r.ordering ≠ .release ∧ r.key = r₀.key := by
  obtain ⟨m, o, hm, ho⟩ := h.seg _ _ _ hi
  rcases hs.target with ⟨hsl, hm₀, -⟩ | ⟨rfl, -⟩
  · obtain ⟨-, h1, -⟩ := h.opened _ _ _ hsl
    refine ⟨h1 i r hi, ?_⟩
    obtain rfl : m = m₀ := Option.some.inj (hm.symm.trans hm₀)
    have h2 := (h.index _ _ _ ho).symm.trans (hs.key ▸ h.index _ _ _ hsl)
    simpa using h2
  · have := (List.getElem?_eq_some_iff.mp hm).1
    omega

/-- The segment taken is not before any segment of the key. -/
theorem le_target {i s : ℕ} {r : PlanRecord K} (hi : At pre w i r s) (hk : r.key = r₀.key) :
    s ≤ s₀ := by
  rcases hs.target with ⟨hsl, -, -⟩ | ⟨rfl, -⟩
  · exact (h.opened _ _ _ hsl).2.2 i r s hi hk
  · obtain ⟨m, -, hm, -⟩ := h.seg _ _ _ hi
    exact (List.getElem?_eq_some_iff.mp hm).1.le

/-- `m₀` describes the segment taken, a new one being empty. -/
theorem describes_target : Describes pre w s₀ m₀ := by
  rcases hs.target with ⟨-, hm₀, -⟩ | ⟨rfl, rfl⟩
  · exact h.describes _ _ hm₀
  · have hno : ∀ i r, ¬ At pre w i r w.metas.length := by
      intro i r hi
      obtain ⟨m, -, hm, -⟩ := h.seg _ _ _ hi
      have := (List.getElem?_eq_some_iff.mp hm).1
      omega
    constructor <;> simp [hno]

/-- A record that acquires opens a segment of its own. -/
theorem acquires_target (ha : r₀.ordering.acquires = true) {i : ℕ} {r : PlanRecord K} :
    ¬ At pre w i r s₀ := by
  intro hi
  rcases hs.target with ⟨-, -, hcut⟩ | ⟨rfl, -⟩
  · rcases (acquires_iff.mp ha) with ho | ho <;> simp [ho, SegmentMeta.cut] at hcut
  · obtain ⟨m, -, hm, -⟩ := h.seg _ _ _ hi
    have := (List.getElem?_eq_some_iff.mp hm).1
    omega

/-- The head after the record, of the segment taken. -/
theorem head_target (t : EventTypeTag) : (m₀.accept r₀.tag r₀.ordering).head = some t ↔
    ∃ i r, At (pre ++ [r₀]) w' i r s₀ ∧ r.ordering.acquires = true ∧ r.tag = t := by
  simp only [at_step h hs, SegmentMeta.accept]
  cases ha : r₀.ordering.acquires with
  | false =>
    simp only [Bool.false_eq_true, ↓reduceIte, (describes_target h hs).head]
    constructor
    · rintro ⟨i, r, hi, hr⟩
      exact ⟨i, r, Or.inl hi, hr⟩
    · rintro ⟨i, r, hi | ⟨-, rfl, -⟩, hr, ht⟩
      · exact ⟨i, r, hi, hr, ht⟩
      · rw [ha] at hr
        cases hr
  | true =>
    simp only [↓reduceIte, Option.some.injEq]
    constructor
    · rintro rfl
      exact ⟨pre.length, r₀, Or.inr ⟨rfl, rfl, trivial⟩, ha, rfl⟩
    · rintro ⟨i, r, hi | ⟨-, rfl, -⟩, -, ht⟩
      · exact absurd hi (acquires_target h hs ha)
      · exact ht

theorem tail_target (t : EventTypeTag) : (m₀.accept r₀.tag r₀.ordering).tail = some t ↔
    ∃ i r, At (pre ++ [r₀]) w' i r s₀ ∧ r.ordering = .release ∧ r.tag = t := by
  simp only [at_step h hs, SegmentMeta.accept]
  split_ifs with hrel
  · simp only [Option.some.injEq]
    constructor
    · rintro rfl
      exact ⟨pre.length, r₀, Or.inr ⟨rfl, rfl, trivial⟩, hrel, rfl⟩
    · rintro ⟨i, r, hi | ⟨-, rfl, -⟩, hr, ht⟩
      · exact absurd hr (prior_target h hs hi).1
      · exact ht
  · rw [(describes_target h hs).tail]
    constructor
    · rintro ⟨i, r, hi, hr⟩
      exact ⟨i, r, Or.inl hi, hr⟩
    · rintro ⟨i, r, hi | ⟨-, rfl, -⟩, hr, ht⟩
      · exact ⟨i, r, hi, hr, ht⟩
      · exact absurd hr hrel

/-- A record after others of its segment leaves the head. -/
theorem head_of_prior {i : ℕ} {r : PlanRecord K} (hi : At pre w i r s₀) :
    (m₀.accept r₀.tag r₀.ordering).head = m₀.head := by
  have ha : r₀.ordering.acquires = false := by
    by_contra hc
    exact acquires_target h hs (by simpa using hc) hi
  simp [SegmentMeta.accept, ha]

theorem mixed_target : (m₀.accept r₀.tag r₀.ordering).mixed = true ↔
    ∃ t, (m₀.accept r₀.tag r₀.ordering).head = some t ∧
      ∃ i r, At (pre ++ [r₀]) w' i r s₀ ∧ r.tag ≠ t := by
  have hd := describes_target h hs
  have hmix : (m₀.accept r₀.tag r₀.ordering).mixed = true ↔ m₀.mixed = true ∨
      ∃ t, (m₀.accept r₀.tag r₀.ordering).head = some t ∧ t ≠ r₀.tag := by
    simp [SegmentMeta.accept, Option.any_eq_true]
  rw [hmix, hd.mixed]
  simp only [at_step h hs]
  constructor
  · rintro (⟨t, ht, i, r, hi, hne⟩ | ⟨t, ht, hne⟩)
    · exact ⟨t, (head_of_prior h hs hi).trans ht, i, r, Or.inl hi, hne⟩
    · exact ⟨t, ht, pre.length, r₀, Or.inr ⟨rfl, rfl, trivial⟩, hne.symm⟩
  · rintro ⟨t, ht, i, r, hi | ⟨-, rfl, -⟩, hne⟩
    · exact Or.inl ⟨t, (head_of_prior h hs hi).symm.trans ht, i, r, hi, hne⟩
    · exact Or.inr ⟨t, ht, hne.symm⟩

theorem describes_step {s : ℕ} {m : SegmentMeta} (hm : w'.metas[s]? = some m) :
    Describes (pre ++ [r₀]) w' s m := by
  rw [hs.metas] at hm
  split_ifs at hm with hss
  · subst hss
    obtain rfl := Option.some.inj hm
    exact ⟨head_target h hs, tail_target h hs, mixed_target h hs⟩
  · have hd := h.describes s m hm
    have heq : ∀ i r, At (pre ++ [r₀]) w' i r s ↔ At pre w i r s := by
      intro i r
      rw [at_step h hs]
      simp [hss]
    constructor
    · simpa only [heq] using hd.head
    · simpa only [heq] using hd.tail
    · simpa only [heq] using hd.mixed

omit h in
theorem slots_self : w'.slots r₀.key =
    some (κ, if r₀.ordering = .release then none else some s₀) := by
  rw [hs.slots, Function.update_self]

omit h in
theorem slots_of_ne {k : K} (hk : k ≠ r₀.key) : w'.slots k = w.slots k := by
  rw [hs.slots, Function.update_of_ne hk]

omit h in
theorem metas_self : w'.metas[s₀]? = some (m₀.accept r₀.tag r₀.ordering) := by
  rw [hs.metas, if_pos rfl]

omit h in
/-- The slot of a key keeps its index. -/
theorem slots_step {k : K} {κ' : ℕ} {o : Option ℕ} (hk : w.slots k = some (κ', o)) :
    ∃ o', w'.slots k = some (κ', o') := by
  rcases eq_or_ne k r₀.key with rfl | hne
  · rcases hs.keys with ⟨⟨o', ho⟩, -⟩ | ⟨h1, -⟩
    · rw [ho] at hk
      cases hk
      exact ⟨_, slots_self hs⟩
    · rw [h1] at hk
      cases hk
  · exact ⟨o, (slots_of_ne hs hne).trans hk⟩

/-- The index of a slot is where its key is. -/
theorem index_step {k : K} {κ' : ℕ} {o : Option ℕ} (hk : w'.slots k = some (κ', o)) :
    w'.keys[κ']? = some ⟨k, ⟨0, 0⟩⟩ := by
  rcases eq_or_ne k r₀.key with rfl | hne
  · rw [slots_self hs] at hk
    cases hk
    rcases hs.keys with ⟨⟨o, ho⟩, h2⟩ | ⟨-, rfl, h2⟩
    · rw [h2]
      exact h.index _ _ _ ho
    · rw [h2, List.getElem?_concat_length]
  · rw [slots_of_ne hs hne] at hk
    have hold := h.index _ _ _ hk
    rcases hs.keys with ⟨-, h2⟩ | ⟨-, -, h2⟩
    · rw [h2]
      exact hold
    · rw [h2, List.getElem?_append_left (List.getElem?_eq_some_iff.mp hold).1]
      exact hold

theorem keys_step {k : KeyPlan K} {κ' : ℕ} (hk : w'.keys[κ']? = some k) :
    ∃ o, w'.slots k.key = some (κ', o) := by
  have hold : w.keys[κ']? = some k → ∃ o, w'.slots k.key = some (κ', o) := by
    intro hk
    obtain ⟨o, ho⟩ := h.keys _ _ hk
    exact slots_step hs ho
  rcases hs.keys with ⟨-, h2⟩ | ⟨-, rfl, h2⟩
  · rw [h2] at hk
    exact hold hk
  · rw [h2, List.getElem?_append] at hk
    split_ifs at hk with hlt
    · exact hold hk
    · obtain ⟨hl, rfl⟩ := List.getElem?_eq_some_iff.mp hk
      rw [List.length_singleton] at hl
      obtain rfl : κ' = w.keys.length := by omega
      exact ⟨_, by simpa using slots_self hs⟩

theorem seg_step {i s : ℕ} {r : PlanRecord K} (hi : At (pre ++ [r₀]) w' i r s) :
    ∃ m o, w'.metas[s]? = some m ∧ w'.slots r.key = some (m.key, o) := by
  have hkey : (m₀.accept r₀.tag r₀.ordering).key = κ := hs.key
  rcases (at_step h hs).mp hi with hi | ⟨-, rfl, rfl⟩
  · obtain ⟨m, o, hm, ho⟩ := h.seg _ _ _ hi
    obtain ⟨o', ho'⟩ := slots_step hs ho
    rcases eq_or_ne s s₀ with rfl | hne
    · refine ⟨_, o', metas_self hs, ?_⟩
      rcases hs.target with ⟨-, hm₀, -⟩ | ⟨rfl, -⟩
      · obtain rfl : m = m₀ := Option.some.inj (hm.symm.trans hm₀)
        exact ho'
      · have := (List.getElem?_eq_some_iff.mp hm).1
        omega
    · exact ⟨m, o', by rw [hs.metas, if_neg hne, hm], ho'⟩
  · exact ⟨_, _, metas_self hs, by rw [hkey, slots_self hs]⟩

theorem nonempty_step {s : ℕ} (hlt : s < w'.metas.length) : ∃ i r, At (pre ++ [r₀]) w' i r s := by
  rcases eq_or_ne s s₀ with rfl | hne
  · exact ⟨pre.length, r₀, (at_step h hs).mpr (Or.inr ⟨rfl, rfl, rfl⟩)⟩
  · have hlt' : s < w.metas.length := by
      have := hs.length
      rcases hs.target with ⟨-, hm₀, -⟩ | ⟨rfl, -⟩
      · have := (List.getElem?_eq_some_iff.mp hm₀).1
        omega
      · omega
    obtain ⟨i, r, hi⟩ := h.nonempty s hlt'
    exact ⟨i, r, (at_step h hs).mpr (Or.inl hi)⟩

/-- A `Release` record of the head type ends a segment that is not mixed. -/
theorem own_step {i s : ℕ} {r : PlanRecord K} {m : SegmentMeta} (hi : At (pre ++ [r₀]) w' i r s)
    (hr : r.ordering = .release) (hm : w'.metas[s]? = some m) (hhead : m.head = some r.tag) :
    m.mixed = false := by
  rw [hs.metas] at hm
  rcases (at_step h hs).mp hi with hi | ⟨rfl, rfl, rfl⟩
  · split_ifs at hm with hss
    · subst hss
      exact absurd hr (prior_target h hs hi).1
    · exact h.own _ _ _ _ hi hr hm hhead
  · rw [if_pos rfl] at hm
    obtain rfl := Option.some.inj hm
    simp only [SegmentMeta.accept, hr, EventAtomicOrdering.acquires, Bool.false_eq_true,
      ↓reduceIte] at hhead ⊢
    rcases hs.target with ⟨-, -, hcut⟩ | ⟨-, rfl⟩
    · simpa [SegmentMeta.cut, hr, hhead] using hcut
    · cases hhead

/-- The open segment of another key is not the segment taken. -/
theorem opened_ne {k : K} {κ' s : ℕ} (hne : k ≠ r₀.key) (hk : w.slots k = some (κ', some s)) :
    s ≠ s₀ := by
  obtain ⟨⟨m, hm, hmκ⟩, -, -⟩ := h.opened _ _ _ hk
  have hkk := h.index _ _ _ hk
  rintro rfl
  rcases hs.target with ⟨hsl, hm₀, -⟩ | ⟨rfl, -⟩
  · obtain rfl : m = m₀ := Option.some.inj (hm.symm.trans hm₀)
    rw [← hmκ, hs.key, h.index _ _ _ hsl] at hkk
    exact hne (by simpa using hkk.symm)
  · have := (List.getElem?_eq_some_iff.mp hm).1
    omega

theorem opened_step {k : K} {κ' s : ℕ} (hk : w'.slots k = some (κ', some s)) :
    (∃ m, w'.metas[s]? = some m ∧ m.key = κ') ∧
      (∀ i r, At (pre ++ [r₀]) w' i r s → r.ordering ≠ .release) ∧
      ∀ i r s', At (pre ++ [r₀]) w' i r s' → r.key = k → s' ≤ s := by
  rcases eq_or_ne k r₀.key with rfl | hne
  · rw [slots_self hs] at hk
    split_ifs at hk with hrel
    · cases hk
    · cases hk
      refine ⟨⟨_, metas_self hs, hs.key⟩, fun i r hi => ?_, fun i r s' hi hkey => ?_⟩
      · rcases (at_step h hs).mp hi with hi | ⟨-, rfl, -⟩
        · exact (prior_target h hs hi).1
        · exact hrel
      · rcases (at_step h hs).mp hi with hi | ⟨-, -, rfl⟩
        · exact le_target h hs hi hkey
        · exact le_rfl
  · rw [slots_of_ne hs hne] at hk
    have hss := opened_ne h hs hne hk
    obtain ⟨⟨m, hm, hmκ⟩, h1, h2⟩ := h.opened _ _ _ hk
    refine ⟨⟨m, by rw [hs.metas, if_neg hss, hm], hmκ⟩, fun i r hi => ?_, fun i r s' hi hkey => ?_⟩
    · rcases (at_step h hs).mp hi with hi | ⟨-, -, rfl⟩
      · exact h1 i r hi
      · exact absurd rfl hss
    · rcases (at_step h hs).mp hi with hi | ⟨-, rfl, -⟩
      · exact h2 i r s' hi hkey
      · exact absurd hkey.symm hne

/-- What holds of two records in their order, of the records before and of the new one. -/
theorem pair_step {p : PlanRecord K → PlanRecord K → Prop} {s : ℕ}
    (hold : ∀ i j r r', At pre w i r s → At pre w j r' s → i < j → p r r')
    (hnew : ∀ i r, At pre w i r s → s = s₀ → p r r₀) {i j : ℕ} {r r' : PlanRecord K}
    (hi : At (pre ++ [r₀]) w' i r s) (hj : At (pre ++ [r₀]) w' j r' s) (hij : i < j) : p r r' := by
  rcases (at_step h hs).mp hi with hi' | ⟨rfl, -, -⟩
  · rcases (at_step h hs).mp hj with hj' | ⟨-, rfl, hss⟩
    · exact hold _ _ _ _ hi' hj' hij
    · exact hnew _ _ hi' hss
  · rcases (at_step h hs).mp hj with hj' | ⟨rfl, -, -⟩
    · have := hj'.lt
      omega
    · omega

/-- **The invariant is kept.** -/
theorem Stepped.ok : Ok (pre ++ [r₀]) w' := by
  constructor
  case len =>
    rw [hs.segmentOf]
    simp [h.len]
  case slots =>
    intro k
    rcases eq_or_ne k r₀.key with rfl | hne
    · rw [slots_self hs]
      simp
    · rw [slots_of_ne hs hne, h.slots k]
      simp only [List.mem_append, List.mem_singleton, or_imp, forall_and, forall_eq]
      exact ⟨fun hp => ⟨hp, hne.symm⟩, fun hp => hp.1⟩
  case index => exact fun k κ' o hk => index_step h hs hk
  case keys => exact fun κ' k hk => keys_step h hs hk
  case seg => exact fun i r s hi => seg_step h hs hi
  case nonempty => exact fun s hlt => nonempty_step h hs hlt
  case mono =>
    intro i j r r' s s' hi hj hk hij
    rcases (at_step h hs).mp hi with hi' | ⟨rfl, -, rfl⟩
    · rcases (at_step h hs).mp hj with hj' | ⟨-, rfl, rfl⟩
      · exact h.mono _ _ _ _ _ _ hi' hj' hk hij
      · exact le_target h hs hi' hk
    · rcases (at_step h hs).mp hj with hj' | ⟨-, -, rfl⟩
      · have := hj'.lt
        omega
      · exact le_rfl
  case first =>
    intro i j r r' s hi hj hij
    refine pair_step h hs (p := fun _ r' => r'.ordering.acquires = false)
      (fun i j r r' hi hj hij => h.first i j r r' s hi hj hij) (fun i r hi hss => ?_) hi hj hij
    subst hss
    by_contra hc
    exact acquires_target h hs (by simpa using hc) hi
  case last =>
    intro i j r r' s hi hj hij
    refine pair_step h hs (p := fun r _ => r.ordering ≠ .release)
      (fun i j r r' hi hj hij => h.last i j r r' s hi hj hij) (fun i r hi hss => ?_) hi hj hij
    subst hss
    exact (prior_target h hs hi).1
  case describes => exact fun s m hm => describes_step h hs hm
  case own => exact fun i r s m hi hr hm hhead => own_step h hs hi hr hm hhead
  case opened => exact fun k κ' s hk => opened_step h hs hk

end Preserve

theorem ok_step (h : Ok pre w) (r : PlanRecord K) : Ok (pre ++ [r]) (w.step r) := by
  obtain ⟨κ, s₀, m₀, hs⟩ := stepped r h
  exact hs.ok h

end Step

/-- **The walk over the whole log.** -/
theorem ok_assignSegments [DecidableEq K] (records : List (PlanRecord K)) :
    Ok records (assignSegments records) := by
  induction records using List.reverseRecOn with
  | nil => exact ok_start
  | append_singleton pre r ih =>
    simp only [assignSegments, List.foldl_append, List.foldl_cons, List.foldl_nil] at ih ⊢
    exact ok_step ih r

/-! ### Relaxed records stay in the open segment -/

section Joins

variable [DecidableEq K] {records : List (PlanRecord K)}

theorem segmentOf_foldl (post : List (PlanRecord K)) (w : Walk K) :
    w.segmentOf <+: (post.foldl Walk.step w).segmentOf := by
  induction post generalizing w with
  | nil => exact List.prefix_rfl
  | cons r post ih =>
    have hstep : w.segmentOf <+: (w.step r).segmentOf := List.prefix_append _ _
    exact hstep.trans (ih (w.step r))

/-- A relaxed record after a record of its key that is no `Release` goes to the segment of that
record. -/
theorem segmentOf_step (w : Walk K) {r r' : PlanRecord K} (hkey : r.key = r'.key)
    (hr : r.ordering ≠ .release) (hr' : r'.ordering = .relaxed) :
    ∃ s, ((w.step r).step r').segmentOf = w.segmentOf ++ [s, s] := by
  have hslot : (w.step r).slots r'.key = some ((w.slot r.key).1,
      some (w.target r (w.slot r.key).1 (w.slot r.key).2.1).1) := by
    rw [← hkey]
    simp [Walk.step, hr]
  have htarget : ∀ (w : Walk K) (κ s : ℕ), (w.target r' κ (some s)).1 = s := by
    intro w κ s
    have hcut : ∀ m : SegmentMeta, m.cut r'.tag r'.ordering = false := by
      intro m
      rw [hr']
      rfl
    have hany : (w.metas[s]?).any (·.cut r'.tag r'.ordering) = false := by
      cases w.metas[s]? with
      | none => rfl
      | some m => exact hcut m
    unfold Walk.target
    rw [Option.filter_some, hany]
    rfl
  refine ⟨(w.target r (w.slot r.key).1 (w.slot r.key).2.1).1, ?_⟩
  have hstep : ((w.step r).step r').segmentOf = (w.step r).segmentOf ++
      [((w.step r).target r' ((w.step r).slot r'.key).1 ((w.step r).slot r'.key).2.1).1] := rfl
  have hopen : ((w.step r).slot r'.key).2.1 =
      some (w.target r (w.slot r.key).1 (w.slot r.key).2.1).1 := by
    simp [Walk.slot, hslot]
  rw [hstep, hopen, htarget]
  show (w.segmentOf ++ [_]) ++ [_] = _
  simp

theorem at_succ {i s : ℕ} {r r' : PlanRecord K} (hi : At records (assignSegments records) i r s)
    (hi' : records[i + 1]? = some r') (hkey : r.key = r'.key) (hr : r.ordering ≠ .release)
    (hr' : r'.ordering = .relaxed) : At records (assignSegments records) (i + 1) r' s := by
  obtain ⟨hri, hsi⟩ := hi
  have hlt := (List.getElem?_eq_some_iff.mp hi').1
  have hsplit : records = records.take i ++ r :: r' :: records.drop (i + 2) := by
    rw [← (List.getElem?_eq_some_iff.mp hri).2, ← (List.getElem?_eq_some_iff.mp hi').2,
      ← List.drop_eq_getElem_cons, ← List.drop_eq_getElem_cons, List.take_append_drop]
  set w := (records.take i).foldl Walk.step (Walk.start : Walk K) with hw
  have hfold : assignSegments records = (records.drop (i + 2)).foldl Walk.step ((w.step r).step r') := by
    conv_lhs => rw [assignSegments, hsplit, List.foldl_append, List.foldl_cons, List.foldl_cons]
  have hlen : w.segmentOf.length = i := by
    have h := (ok_assignSegments (records.take i)).len
    rw [List.length_take, Nat.min_eq_left (by omega)] at h
    exact h
  obtain ⟨t, ht⟩ := segmentOf_step w hkey hr hr'
  obtain ⟨more, hmore⟩ := segmentOf_foldl (records.drop (i + 2)) ((w.step r).step r')
  rw [ht, ← hfold] at hmore
  have hget : ∀ k, k < 2 → (assignSegments records).segmentOf[i + k]? = some t := by
    intro k hk
    rw [← hmore, List.append_assoc, List.getElem?_append_right (by omega), hlen, Nat.add_sub_cancel_left]
    rcases k with _ | _ | k
    · rfl
    · rfl
    · omega
  have hs : s = t := Option.some.inj (hsi.symm.trans (hget 0 (by omega)))
  exact ⟨hi', by rw [hs]; exact hget 1 (by omega)⟩

/-- Relaxed records of one key, one after another, share the segment of the first. -/
theorem at_of_relaxed {i s : ℕ} {r : PlanRecord K} (hi : At records (assignSegments records) i r s)
    (hr : r.ordering ≠ .release) : ∀ (n : ℕ), (∀ k, i < k → k ≤ i + n → ∃ r', records[k]? = some r' ∧
      r'.key = r.key ∧ r'.ordering = .relaxed) →
        ∃ r', At records (assignSegments records) (i + n) r' s
  | 0, _ => ⟨r, hi⟩
  | n + 1, h => by
    obtain ⟨r₁, h₁⟩ := at_of_relaxed hi hr n fun k hk hkn => h k hk (by omega)
    obtain ⟨r₂, h₂, hk₂, ho₂⟩ := h (i + n + 1) (by omega) (by omega)
    have hmem : r₁.key = r.key ∧ r₁.ordering ≠ .release := by
      rcases Nat.eq_zero_or_pos n with rfl | hn
      · obtain ⟨rfl, -⟩ := h₁.record_eq hi
        exact ⟨rfl, hr⟩
      · obtain ⟨r', hr', hk', ho'⟩ := h (i + n) (by omega) (by omega)
        obtain rfl : r' = r₁ := Option.some.inj (hr'.symm.trans h₁.1)
        exact ⟨hk', by rw [ho']; decide⟩
    exact ⟨r₂, at_succ h₁ h₂ (hmem.1.trans hk₂.symm) hmem.2 ho₂⟩

end Joins

end Wakuwaku.Iggy.Partition.Segments
