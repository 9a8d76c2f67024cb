import Wakuwaku.Iggy.Partition.Order

/-! # Relaxed records of a head run

A relaxed record that follows an `Acquire` of its type, with nothing of another type between, is in
the head run of the `Acquire`, and the plan orders it against other types as if it were a fence itself
(`precedes_of_fenced`). Taking out whole runs of a plan leaves such records behind their `Acquire`
(`Headed.without`). -/

namespace Wakuwaku.Iggy.Partition.Fences

open Wakuwaku.Iggy.Events Wakuwaku.Iggy.Partition.Segments Wakuwaku.Iggy.Partition.Grouping
open Wakuwaku.Iggy.Partition.Build Wakuwaku.Iggy.Partition.Order

variable {K : Type} [DecidableEq K] {records : List (PlanRecord K)}

/-- Record `p` follows an `Acquire` of its key and type, after relaxed records of the same type. -/
def Headed (records : List (PlanRecord K)) (p : ℕ) : Prop :=
  ∃ i n r, p = i + n ∧ records[i]? = some r ∧ r.ordering = .acquire ∧ ∀ k, i < k → k ≤ i + n →
    ∃ r', records[k]? = some r' ∧ r'.key = r.key ∧ r'.tag = r.tag ∧ r'.ordering = .relaxed

/-- Record `p` orders its key: it is no relaxed record, or it follows an `Acquire`. -/
def Fenced (records : List (PlanRecord K)) (p : ℕ) : Prop :=
  (∃ r, records[p]? = some r ∧ r.ordering ≠ .relaxed) ∨ Headed records p

/-- The relaxed records after an `Acquire` of their type have its run key. -/
theorem runKey_of_relaxed {i n : ℕ} {r : PlanRecord K} (hr : records[i]? = some r)
    (ho : r.ordering = .acquire) (hbetween : ∀ k, i < k → k ≤ i + n → ∃ r', records[k]? = some r' ∧
      r'.key = r.key ∧ r'.tag = r.tag ∧ r'.ordering = .relaxed) :
    runKey records (assignSegments records) (i + n) = runKey records (assignSegments records) i := by
  have hok := ok_assignSegments records
  obtain ⟨s, hs⟩ := exists_at hok hr
  obtain ⟨r', hs'⟩ := at_of_relaxed hs (by rw [ho]; decide) n fun k hk hkn => by
    obtain ⟨r', h1, h2, -, h3⟩ := hbetween k hk hkn
    exact ⟨r', h1, h2, h3⟩
  have htag : r'.tag = r.tag := by
    rcases Nat.eq_zero_or_pos n with rfl | hn
    · exact congrArg _ (Option.some.inj (hs'.1.symm.trans hr))
    · obtain ⟨r'', h1, -, h3, -⟩ := hbetween (i + n) (by omega) (by omega)
      rw [← h3, Option.some.inj (hs'.1.symm.trans h1)]
  obtain ⟨m, -, hm, -⟩ := hok.seg _ _ _ hs
  rw [runKey_at hs hm, runKey_at hs' hm, htag]

/-- A headed record is in the run of its `Acquire`, as is everything between. -/
theorem Headed.runKey_eq {p : ℕ} (h : Headed records p) : ∃ i r r', i ≤ p ∧ records[i]? = some r ∧
    r.ordering = .acquire ∧ records[p]? = some r' ∧ r'.key = r.key ∧ r'.tag = r.tag ∧
      (∀ k, i ≤ k → k ≤ p → ∃ r'', records[k]? = some r'' ∧ r''.tag = r.tag) ∧
        runKey records (assignSegments records) p = runKey records (assignSegments records) i := by
  obtain ⟨i, n, r, rfl, hr, ho, hbetween⟩ := h
  have hmem : ∀ k, i ≤ k → k ≤ i + n → ∃ r'', records[k]? = some r'' ∧ r''.key = r.key ∧
      r''.tag = r.tag := by
    intro k hk hkn
    rcases Nat.eq_or_lt_of_le hk with rfl | hlt
    · exact ⟨r, hr, rfl, rfl⟩
    · obtain ⟨r'', h1, h2, h3, -⟩ := hbetween k hlt hkn
      exact ⟨r'', h1, h2, h3⟩
  obtain ⟨r', h1, h2, h3⟩ := hmem (i + n) (by omega) (by omega)
  refine ⟨i, r, r', by omega, hr, ho, h1, h2, h3, fun k hk hkn => ?_,
    runKey_of_relaxed hr ho hbetween⟩
  obtain ⟨r'', g1, -, g3⟩ := hmem k hk hkn
  exact ⟨r'', g1, g3⟩

/-! ### Places -/

/-- Two places in one run. -/
def SameRun (p q : Place) : Prop := p.segment = q.segment ∧ p.rank = q.rank ∧ p.run = q.run

/-- What precedes a record of one run precedes every record of it that is in another run. -/
theorem precedes_congr {p p' q q' : Place} (hp : SameRun p p') (hq : SameRun q q')
    (hne : ¬ (p.segment = q.segment ∧ p.run = q.run)) (h : p.Precedes q) : p'.Precedes q' := by
  obtain ⟨h1, h2, h3⟩ := hp
  obtain ⟨h4, h5, h6⟩ := hq
  unfold Place.Precedes at h ⊢
  rw [← h1, ← h2, ← h3, ← h4, ← h5, ← h6]
  omega

/-- Every record is placed, in the plan of its key. -/
theorem exists_key {i : ℕ} {x : PlanRecord K} (hi : records[i]? = some x) :
    ∃ kp ∈ (Plan.new records).keys, kp.key = x.key ∧ ∃ p, (Plan.new records).Placed kp i p := by
  have h := ok_assignSegments records
  obtain ⟨s, hs⟩ := exists_at h hi
  obtain ⟨κ, kp, hkp, hk, hp⟩ := exists_placed h (built_new records) hs
  exact ⟨kp, List.mem_of_getElem? hkp, hk, hp⟩

section Places

variable {kp : KeyPlan K} (hkp : kp ∈ (Plan.new records).keys)
include hkp

/-- Every record of a key is placed in the plan of the key. -/
theorem exists_place {i : ℕ} {x : PlanRecord K} (hi : records[i]? = some x) (hkey : x.key = kp.key) :
    ∃ p, (Plan.new records).Placed kp i p := by
  obtain ⟨kp', hkp', hk', hp⟩ := exists_key hi
  have heq : kp' = kp := List.inj_on_of_nodup_map (keys_nodup records) hkp' hkp (hk'.trans hkey)
  exact heq ▸ hp

/-- Records of one run key are placed in one run, and records of one run have one run key. -/
theorem sameRun_iff {i j : ℕ} {p q : Place} (hp : (Plan.new records).Placed kp i p)
    (hq : (Plan.new records).Placed kp j q) :
    (p.segment = q.segment ∧ p.run = q.run ↔
      runKey records (assignSegments records) i = runKey records (assignSegments records) j) ∧
    (runKey records (assignSegments records) i = runKey records (assignSegments records) j →
      p.rank = q.rank) := by
  have h := ok_assignSegments records
  obtain ⟨κ, hκ⟩ := List.getElem?_of_mem hkp
  obtain ⟨s, a, hs, ha, hra, hia⟩ := (placed_iff h (built_new records) hκ).mp hp
  obtain ⟨s', b, hs', hbk, hrb, hjb⟩ := (placed_iff h (built_new records) hκ).mp hq
  obtain ⟨-, hai⟩ := mem_members.mp (List.mem_of_getElem? hia)
  obtain ⟨-, hbj⟩ := mem_members.mp (List.mem_of_getElem? hjb)
  rw [hai, hbj]
  constructor
  · constructor
    · rintro ⟨hseg, hrun⟩
      rw [hseg, hs'] at hs
      obtain rfl := Option.some.inj hs
      rw [hrun, hbk] at ha
      exact (Option.some.inj ha).symm
    · rintro rfl
      obtain ⟨-, rfl⟩ := (mem_runKeys h).mp (List.mem_of_getElem? ha)
      obtain ⟨-, hsb⟩ := (mem_runKeys h).mp (List.mem_of_getElem? hbk)
      rw [hsb] at hs ha
      have hseg : p.segment = q.segment :=
        index_eq ((pairwise_segmentsAt κ).imp fun hlt => Nat.ne_of_lt hlt) hs hs'
      have hnd : (runKeys records (assignSegments records) s').Nodup :=
        (pairwise_runKeys s').imp fun hlt he => by subst he; exact lt_irrefl _ hlt
      exact ⟨hseg, index_eq hnd ha hbk⟩
  · rintro rfl
    rw [← hra, ← hrb]

/-- A record has one place. -/
theorem place_unique {i : ℕ} {p q : Place} (hp : (Plan.new records).Placed kp i p)
    (hq : (Plan.new records).Placed kp i q) : p = q := by
  have h := ok_assignSegments records
  obtain ⟨⟨hsegment, hrun⟩, hrank⟩ := (sameRun_iff hkp hp hq).imp_left fun hiff => hiff.mpr rfl
  obtain ⟨κ, hκ⟩ := List.getElem?_of_mem hkp
  obtain ⟨s, a, hs, ha, -, hia⟩ := (placed_iff h (built_new records) hκ).mp hp
  obtain ⟨s', b, hs', hb, -, hib⟩ := (placed_iff h (built_new records) hκ).mp hq
  rw [← hsegment, hs] at hs'
  obtain rfl := Option.some.inj hs'
  rw [← hrun, ha] at hb
  obtain rfl := Option.some.inj hb
  have hnd : (members records (assignSegments records) a).Nodup := List.nodup_range.filter _
  have hposition := index_eq hnd hia hib
  cases p
  cases q
  simp_all

end Places

/-! ### The order law with fences that became relaxed -/

section Law

variable {kp : KeyPlan K} (hkp : kp ∈ (Plan.new records).keys) {i j : ℕ} {x y : PlanRecord K} {p q : Place}
include hkp

/-- The order law, at places in a given key. -/
theorem precedes_of_new (hi : records[i]? = some x) (hj : records[j]? = some y) (hij : i < j)
    (hkey : x.key = y.key) (hdep : x.tag = y.tag ∨ x.ordering ≠ .relaxed ∨ y.ordering ≠ .relaxed)
    (hp : (Plan.new records).Placed kp i p) (hq : (Plan.new records).Placed kp j q) :
    p.Precedes q := by
  have h := ok_assignSegments records
  obtain ⟨κ, hκ⟩ := List.getElem?_of_mem hkp
  obtain ⟨s, hs⟩ := exists_at h hi
  obtain ⟨s', hs'⟩ := exists_at h hj
  exact precedes_of_dependent h (built_new records) hκ hs hs' hij hkey hdep hp hq

/-- Records in one run share their type. -/
theorem tag_of_sameRun (hi : records[i]? = some x) (hj : records[j]? = some y)
    (hp : (Plan.new records).Placed kp i p) (hq : (Plan.new records).Placed kp j q)
    (hr : p.segment = q.segment ∧ p.run = q.run) : x.tag = y.tag := by
  have h := (sameRun_iff hkp hp hq).1.mp hr
  simpa [runKey, hi, hj] using congrArg RunKey.tag h

/-- **Records that follow an `Acquire` order their key as it does.** -/
theorem precedes_of_fenced (hi : records[i]? = some x) (hj : records[j]? = some y) (hij : i < j)
    (hkx : x.key = kp.key) (hky : y.key = kp.key)
    (hdep : x.tag = y.tag ∨ Fenced records i ∨ Fenced records j)
    (hp : (Plan.new records).Placed kp i p) (hq : (Plan.new records).Placed kp j q) :
    p.Precedes q := by
  by_cases hd : x.tag = y.tag ∨ x.ordering ≠ .relaxed ∨ y.ordering ≠ .relaxed
  · exact precedes_of_new hkp hi hj hij (hkx.trans hky.symm) hd hp hq
  · push Not at hd
    obtain ⟨htag, hx, hy⟩ := hd
    have hne : ¬ (p.segment = q.segment ∧ p.run = q.run) := fun hr =>
      htag (tag_of_sameRun hkp hi hj hp hq hr)
    have headed : ∀ {k : ℕ} {z : PlanRecord K}, records[k]? = some z → z.ordering = .relaxed →
        Fenced records k → Headed records k := by
      rintro k z hk hz (⟨z', hk', hz'⟩ | h)
      · obtain rfl := Option.some.inj (hk.symm.trans hk')
        exact absurd hz hz'
      · exact h
    have hsame : ∀ {k m : ℕ} {p₁ p₂ : Place}, (Plan.new records).Placed kp k p₁ →
        (Plan.new records).Placed kp m p₂ →
          runKey records (assignSegments records) k = runKey records (assignSegments records) m →
            SameRun p₁ p₂ := by
      intro k m p₁ p₂ h1 h2 hk
      have hiff := sameRun_iff hkp h1 h2
      exact ⟨(hiff.1.mpr hk).1, hiff.2 hk, (hiff.1.mpr hk).2⟩
    rcases hdep with hc | hc | hc
    · exact absurd hc htag
    · obtain ⟨a, r, r', hle, ha, ho, hi', hrk, -, -, hk⟩ := (headed hi hx hc).runKey_eq
      obtain rfl := Option.some.inj (hi.symm.trans hi')
      obtain ⟨pa, hpa⟩ := exists_place hkp ha (hrk.symm.trans hkx)
      have hprec := precedes_of_new hkp ha hj (by omega) (by rw [← hrk, hkx, hky])
        (Or.inr (Or.inl (by rw [ho]; decide))) hpa hq
      have hsr := hsame hpa hp hk.symm
      exact precedes_congr hsr ⟨rfl, rfl, rfl⟩ (by rw [hsr.1, hsr.2.2]; exact hne) hprec
    · obtain ⟨a, r, r', hle, ha, ho, hj', hrk, hrt, hbetween, hk⟩ := (headed hj hy hc).runKey_eq
      obtain rfl := Option.some.inj (hj.symm.trans hj')
      -- nothing of another type stands between the `Acquire` and `j`
      have hia : i < a := by
        by_contra hge
        obtain ⟨r'', h1, h2⟩ := hbetween i (by omega) (by omega)
        obtain rfl := Option.some.inj (hi.symm.trans h1)
        exact htag (h2.trans hrt.symm)
      obtain ⟨pa, hpa⟩ := exists_place hkp ha (hrk.symm.trans hky)
      have hprec := precedes_of_new hkp hi ha hia (by rw [← hrk, hkx, hky])
        (Or.inr (Or.inr (by rw [ho]; decide))) hp hpa
      have hsr := hsame hpa hq hk.symm
      exact precedes_congr ⟨rfl, rfl, rfl⟩ hsr (by rw [hsr.1, hsr.2.2]; exact hne) hprec

end Law

/-- A record does not precede itself, and no two records precede each other. -/
theorem not_precedes {kp : KeyPlan K} (hkp : kp ∈ (Plan.new records).keys) {i j : ℕ} {p q : Place}
    (hp : (Plan.new records).Placed kp i p) (hq : (Plan.new records).Placed kp j q)
    (h : i = j ∨ p.Precedes q) : ¬ q.Precedes p := by
  rcases h with rfl | h
  · obtain rfl := place_unique hkp hp hq
    unfold Place.Precedes
    omega
  · have hrank : p.segment = q.segment → p.run = q.run → p.rank.toNat = q.rank.toNat := fun h1 h2 => by
      have hiff := sameRun_iff hkp hp hq
      rw [hiff.2 (hiff.1.mp ⟨h1, h2⟩)]
    unfold Place.Precedes at h ⊢
    omega

/-! ### Adding and taking out records -/

omit [DecidableEq K] in
/-- Records in front and behind leave a record headed. -/
theorem Headed.append {p : ℕ} (h : Headed records p) (pre post : List (PlanRecord K)) :
    Headed (pre ++ records ++ post) (pre.length + p) := by
  have hget : ∀ {k : ℕ} {r : PlanRecord K}, records[k]? = some r →
      (pre ++ records ++ post)[pre.length + k]? = some r := by
    intro k r hk
    have hlt := (List.getElem?_eq_some_iff.mp hk).1
    rw [List.append_assoc, List.getElem?_append_right (by omega), Nat.add_sub_cancel_left,
      List.getElem?_append_left hlt, hk]
  obtain ⟨i, n, r, rfl, hr, ho, hbetween⟩ := h
  refine ⟨pre.length + i, n, r, by omega, hget hr, ho, fun k hk hkn => ?_⟩
  obtain ⟨r', h1, h2⟩ := hbetween (k - pre.length) (by omega) (by omega)
  refine ⟨r', ?_, h2⟩
  rw [show k = pre.length + (k - pre.length) by omega]
  exact hget h1

omit [DecidableEq K] in
theorem Fenced.append {p : ℕ} (h : Fenced records p) (pre post : List (PlanRecord K)) :
    Fenced (pre ++ records ++ post) (pre.length + p) := by
  rcases h with ⟨r, hr, hne⟩ | h
  · have hlt := (List.getElem?_eq_some_iff.mp hr).1
    refine Or.inl ⟨r, ?_, hne⟩
    rw [List.append_assoc, List.getElem?_append_right (by omega), Nat.add_sub_cancel_left,
      List.getElem?_append_left hlt, hr]
  · exact Or.inr (h.append pre post)

/-- The indices of `l` that are not taken out. -/
def kept {α : Type} (l : List α) (gone : List ℕ) : List ℕ := (List.range l.length).filter (· ∉ gone)

/-- `l` without the elements at some indices. -/
def without {α : Type} (l : List α) (gone : List ℕ) : List α := (kept l gone).filterMap (l[·]?)

section Without

variable {α β : Type} {l : List α} {gone : List ℕ}

theorem mem_kept {i : ℕ} : i ∈ kept l gone ↔ i < l.length ∧ i ∉ gone := by
  simp [kept]

theorem getElem?_filterMap_of_isSome {f : ℕ → Option α} : ∀ {is : List ℕ}, (∀ i ∈ is, (f i).isSome) →
    ∀ p : ℕ, (is.filterMap f)[p]? = is[p]?.bind f
  | [], _, p => by simp
  | i :: is, h, p => by
    obtain ⟨a, ha⟩ := Option.isSome_iff_exists.mp (h i List.mem_cons_self)
    rw [List.filterMap_cons_some ha]
    cases p with
    | zero => simp [ha]
    | succ p => simpa using getElem?_filterMap_of_isSome (fun i hi => h i (List.mem_cons_of_mem _ hi)) p

theorem getElem?_without (p : ℕ) : (without l gone)[p]? = (kept l gone)[p]?.bind (l[·]?) := by
  refine getElem?_filterMap_of_isSome (fun i hi => ?_) p
  rw [List.getElem?_eq_getElem (mem_kept.mp hi).1]
  rfl

/-- Every element that is left has an index it had before. -/
theorem exists_kept {p : ℕ} {a : α} (h : (without l gone)[p]? = some a) :
    ∃ i, (kept l gone)[p]? = some i ∧ l[i]? = some a := by
  rw [getElem?_without, Option.bind_eq_some_iff] at h
  exact h

theorem filterMap_range : ∀ l : List α, (List.range l.length).filterMap (l[·]?) = l
  | [] => rfl
  | a :: l => by
    rw [List.length_cons, List.range_succ_eq_map]
    have ih := filterMap_range l
    simpa [List.filterMap_map, Function.comp_def] using ih

theorem without_sublist (l : List α) (gone : List ℕ) : (without l gone).Sublist l := by
  have h : (kept l gone).Sublist (List.range l.length) := List.filter_sublist
  have h' := h.filterMap (l[·]?)
  rwa [filterMap_range] at h'

theorem map_without (f : α → β) : (without l gone).map f = without (l.map f) gone := by
  rw [without, without, List.map_filterMap, kept, kept, List.length_map]
  refine List.filterMap_congr fun i _ => ?_
  rw [List.getElem?_map]

theorem pairwise_kept (l : List α) (gone : List ℕ) : (kept l gone).Pairwise (· < ·) :=
  List.pairwise_lt_range.filter _

end Without

/-- The indices of some runs of a plan. -/
def RunsOf (plan : Plan K) (gone : List ℕ) : Prop :=
  ∀ i ∈ gone, ∃ kp ∈ plan.keys, ∃ segment ∈ plan.segmentsOf kp, ∃ a ∈ plan.ranked segment,
    i ∈ plan.records a.2 ∧ plan.records a.2 ⊆ gone

/-- Whole runs are taken out with all records of their run key. -/
theorem mem_gone_iff {gone : List ℕ} (hgone : RunsOf (Plan.new records) gone) {i j : ℕ}
    (hj : j < records.length) (hk : runKey records (assignSegments records) i =
      runKey records (assignSegments records) j) (hi : i ∈ gone) : j ∈ gone := by
  obtain ⟨kp, hkp, segment, hseg, a, ha, hmem, hsub⟩ := hgone i hi
  obtain ⟨b, -, -, -, hrec⟩ := runKey_of_ranked (ok_assignSegments records) (built_new records) hkp hseg ha
  rw [hrec] at hmem hsub
  exact hsub (mem_members.mpr ⟨hj, hk ▸ (mem_members.mp hmem).2⟩)

/-- **Taking out whole runs leaves a record behind its `Acquire`.** -/
theorem Headed.without {gone : List ℕ} {p p' : ℕ} (h : Headed records p)
    (hgone : RunsOf (Plan.new records) gone) (hp : (kept records gone)[p']? = some p) :
    Headed (without records gone) p' := by
  obtain ⟨i, n, r, rfl, hr, ho, hbetween⟩ := h
  obtain ⟨hlt, hkeep⟩ := mem_kept.mp (List.mem_of_getElem? hp)
  have hlti := (List.getElem?_eq_some_iff.mp hr).1
  have hi : i ∈ kept records gone := mem_kept.mpr ⟨hlti, fun hi => hkeep
    (mem_gone_iff hgone hlt (runKey_of_relaxed hr ho hbetween).symm hi)⟩
  obtain ⟨i', hi'⟩ := List.getElem?_of_mem hi
  have hpw := pairwise_kept records gone
  have hmono : ∀ {k m a b : ℕ}, (kept records gone)[k]? = some a → (kept records gone)[m]? = some b →
      k < m → a < b := by
    intro k m a b hk hm hkm
    obtain ⟨h1, rfl⟩ := List.getElem?_eq_some_iff.mp hk
    obtain ⟨h2, rfl⟩ := List.getElem?_eq_some_iff.mp hm
    exact List.pairwise_iff_getElem.mp hpw k m h1 h2 hkm
  have hle : i' ≤ p' := by
    by_contra hgt
    have := hmono hp hi' (by omega)
    omega
  refine ⟨i', p' - i', r, by omega, by rw [getElem?_without, hi']; exact hr, ho, fun k hk hkn => ?_⟩
  have hklt : k < (kept records gone).length :=
    Nat.lt_of_le_of_lt (by omega) (List.getElem?_eq_some_iff.mp hp).1
  have hkk : (kept records gone)[k]? = some (kept records gone)[k] := List.getElem?_eq_getElem hklt
  have h1 := hmono hi' hkk hk
  have h2 : (kept records gone)[k] ≤ i + n := by
    rcases Nat.eq_or_lt_of_le (show k ≤ p' by omega) with rfl | hlt
    · rw [hkk] at hp
      rw [Option.some.inj hp]
    · exact Nat.le_of_lt (hmono hkk hp hlt)
  obtain ⟨r', h3, h4⟩ := hbetween _ h1 h2
  exact ⟨r', by rw [getElem?_without, hkk]; exact h3, h4⟩

theorem Fenced.without {gone : List ℕ} {p p' : ℕ} (h : Fenced records p)
    (hgone : RunsOf (Plan.new records) gone) (hp : (kept records gone)[p']? = some p) :
    Fenced (without records gone) p' := by
  rcases h with ⟨r, hr, hne⟩ | h
  · exact Or.inl ⟨r, by rw [getElem?_without, hp]; exact hr, hne⟩
  · exact Or.inr (h.without hgone hp)

/-! ### The fences of a run -/

section Run

variable {kp : KeyPlan K} (hkp : kp ∈ (Plan.new records).keys) {segment : Segment}
  (hseg : segment ∈ (Plan.new records).segmentsOf kp) {a : Rank × Run}
  (ha : a ∈ (Plan.new records).ranked segment)
include hkp hseg ha

/-- The records of a run are in one segment, and the run has their rank there. -/
theorem at_of_ranked : ∃ s m, (assignSegments records).metas[s]? = some m ∧
    ∀ i ∈ (Plan.new records).records a.2, ∃ r, At records (assignSegments records) i r s ∧
      r.tag = a.2.tag ∧ m.rank r.tag = a.1 := by
  have h := ok_assignSegments records
  obtain ⟨b, ⟨i₀, hi₀, hk₀⟩, hrank, htag, hrec⟩ :=
    runKey_of_ranked h (built_new records) hkp hseg ha
  obtain ⟨_, s, m, -, hm, -, hb⟩ := exists_runKey h hi₀
  have hbs : b.segment = s := by rw [← hk₀, hb]
  refine ⟨s, m, hm, fun i hi => ?_⟩
  rw [hrec] at hi
  obtain ⟨hlt, hk⟩ := mem_members.mp hi
  obtain ⟨r, s', m', hat, hm', -, hr⟩ := exists_runKey h hlt
  have heq := hk.symm.trans hr
  obtain rfl : s' = s := by rw [← hbs, heq]
  obtain rfl : m' = m := Option.some.inj (hm'.symm.trans hm)
  exact ⟨r, hat, by rw [← htag, heq], by rw [← hrank, heq]⟩

/-- A run holds its records in log order. -/
theorem pairwise_records : ((Plan.new records).records a.2).Pairwise (· < ·) := by
  obtain ⟨b, -, -, -, hrec⟩ := runKey_of_ranked (ok_assignSegments records) (built_new records) hkp hseg ha
  rw [hrec]
  exact List.pairwise_lt_range.filter _

/-- In a run, a record that acquires is the first and a `Release` is the last. -/
theorem fence_of_run {i j : ℕ} {x y : PlanRecord K} (hi : i ∈ (Plan.new records).records a.2)
    (hj : j ∈ (Plan.new records).records a.2) (hx : records[i]? = some x) (hy : records[j]? = some y)
    (hij : i < j) : x.ordering ≠ .release ∧ y.ordering.acquires = false := by
  have h := ok_assignSegments records
  obtain ⟨s, m, -, hrun⟩ := at_of_ranked hkp hseg ha
  obtain ⟨r, hat, -⟩ := hrun i hi
  obtain ⟨r', hat', -⟩ := hrun j hj
  obtain rfl := Option.some.inj (hx.symm.trans hat.1)
  obtain rfl := Option.some.inj (hy.symm.trans hat'.1)
  exact ⟨h.last _ _ _ _ _ hat hat' hij, by simpa using h.first _ _ _ _ _ hat hat' hij⟩

/-- The fences of a key are in head and tail runs, those of a tail run are `Release`s. -/
theorem rank_of_fence {i : ℕ} {x : PlanRecord K} (hi : i ∈ (Plan.new records).records a.2)
    (hx : records[i]? = some x) (hne : x.ordering ≠ .relaxed) :
    a.1 ≠ .body ∧ (a.1 = .tail → x.ordering = .release) := by
  have h := ok_assignSegments records
  obtain ⟨s, m, hm, hrun⟩ := at_of_ranked hkp hseg ha
  obtain ⟨r, hat, -, hrank⟩ := hrun i hi
  obtain rfl := Option.some.inj (hx.symm.trans hat.1)
  have hd := h.describes _ _ hm
  have hacq : x.ordering.acquires = true → a.1 = .head := by
    intro hc
    rw [← hrank, SegmentMeta.rank, if_pos ((hd.head _).mpr ⟨i, x, hat, hc, rfl⟩)]
  cases ho : x.ordering with
  | relaxed => exact absurd ho hne
  | acquire => simp [hacq (by simp [ho])]
  | acqRel => simp [hacq (by simp [ho])]
  | release =>
    refine ⟨?_, fun _ => rfl⟩
    rw [← hrank, SegmentMeta.rank, if_pos ((hd.tail _).mpr ⟨i, x, hat, ho, rfl⟩)]
    split_ifs <;> simp

end Run

end Wakuwaku.Iggy.Partition.Fences
