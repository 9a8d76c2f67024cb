import Wakuwaku.Async
import Wakuwaku.Grouped
import Mathlib.Data.List.Sort
import Mathlib.Logic.Function.Conjugate

/-! # Reordering effects

Effects on a state, applied one after another. Effects that commute may be applied in any order: two
interleaved lists have the effect of one after the other (`runAll_interleave`), and a list whose
reversed pairs commute has the effect of the sorted list (`runAll_insertionSort`). Where effects of different
keys commute, only the order within each key matters (`runAll_of_entriesOf`). -/

namespace Wakuwaku

variable {S ε α β : Type}

/-- Apply effects in order. -/
def runAll (fs : List (S → S)) (s : S) : S := fs.foldl (fun s f => f s) s

namespace Reorder

variable {fs gs : List (S → S)} {f g : S → S}

@[simp] theorem runAll_nil : runAll ([] : List (S → S)) = id := rfl

@[simp] theorem runAll_cons : runAll (f :: fs) = runAll fs ∘ f := rfl

@[simp] theorem runAll_append : runAll (fs ++ gs) = runAll gs ∘ runAll fs := by
  funext s
  exact List.foldl_append

theorem runAll_flatMap (l : List β) (F : β → List (S → S)) :
    runAll (l.map fun b => runAll (F b)) = runAll (l.flatMap F) := by
  induction l with
  | nil => rfl
  | cons b l ih => rw [List.map_cons, runAll_cons, ih, List.flatMap_cons, runAll_append]

/-- What commutes with every effect commutes with all of them. -/
theorem commute_runAll (h : ∀ f ∈ fs, Function.Commute f g) : Function.Commute (runAll fs) g := by
  induction fs with
  | nil => exact fun s => rfl
  | cons f fs ih =>
    rw [runAll_cons]
    exact (ih fun f hf => h f (List.mem_cons_of_mem _ hf)).comp_left (h f List.mem_cons_self)

theorem commute_runAll_runAll (h : ∀ f ∈ fs, ∀ g ∈ gs, Function.Commute f g) :
    Function.Commute (runAll fs) (runAll gs) :=
  commute_runAll fun f hf => (commute_runAll fun g hg => (h f hf g hg).symm).symm

/-! ### Interleavings -/

/-- Two interleaved traces whose effects commute have the effect of one after the other. -/
theorem runAll_interleave {u v t : List ε} {effects : ε → List (S → S)} (ht : Interleave u v t)
    (h : ∀ e ∈ u, ∀ f ∈ effects e, ∀ e' ∈ v, ∀ g ∈ effects e', Function.Commute f g) :
    runAll (t.flatMap effects) = runAll (v.flatMap effects) ∘ runAll (u.flatMap effects) := by
  induction ht with
  | nil => rfl
  | @left e u v t ht ih =>
    rw [List.flatMap_cons, List.flatMap_cons, runAll_append, runAll_append,
      ih fun e he => h e (List.mem_cons_of_mem _ he)]
    rfl
  | @right e u v t ht ih =>
    have hc : Function.Commute (runAll (u.flatMap effects)) (runAll (effects e)) := by
      refine commute_runAll_runAll fun f hf g hg => ?_
      obtain ⟨e', he', hf⟩ := List.mem_flatMap.mp hf
      exact h e' he' f hf e List.mem_cons_self g hg
    rw [List.flatMap_cons, List.flatMap_cons, runAll_append, runAll_append,
      ih fun e he f hf e' he' => h e he f hf e' (List.mem_cons_of_mem _ he'),
      Function.comp_assoc, Function.comp_assoc, hc.comp_eq]

/-- Computations side by side whose effects commute have the effect of one after the other. Only
traces of events with `ok` count, and each computation `m b` then has the effect `F b`. -/
theorem runAll_joinAll {m : β → Async ε α} {effects : ε → List (S → S)} {ok : ε → Prop}
    {F : β → S → S} {Q : α → Prop} {l : List β} {t : List ε} {as : List α}
    (hl : ∀ b ∈ l, ∀ t a, m b t (some a) → (∀ e ∈ t, ok e) → Q a ∧ runAll (t.flatMap effects) = F b)
    (hc : l.Pairwise fun b c => ∀ u o v o', m b u o → m c v o' →
      ∀ e ∈ u, ∀ f ∈ effects e, ∀ e' ∈ v, ∀ g ∈ effects e', Function.Commute f g)
    (ht : Async.joinAll (l.map m) t (some as)) (hok : ∀ e ∈ t, ok e) :
    (∀ a ∈ as, Q a) ∧ runAll (t.flatMap effects) = runAll (l.map F) := by
  induction l generalizing t as with
  | nil =>
    obtain ⟨rfl, rfl⟩ := Async.joinAll_nil_iff.mp ht
    exact ⟨by simp, rfl⟩
  | cons b l ih =>
    obtain ⟨u, v, a, as, hu, hv, huv, rfl⟩ := Async.joinAll_cons_iff.mp ht
    rw [List.pairwise_cons] at hc
    obtain ⟨ha, hb⟩ := hl b List.mem_cons_self u a hu fun e he => hok e (huv.mem_iff.mpr (Or.inl he))
    obtain ⟨has, hrest⟩ := ih (fun b hb => hl b (List.mem_cons_of_mem _ hb)) hc.2 hv fun e he =>
      hok e (huv.mem_iff.mpr (Or.inr he))
    refine ⟨by simpa using ⟨ha, has⟩, ?_⟩
    rw [runAll_interleave huv, hb, hrest]
    · rfl
    · intro e he f hf e' he' g hg
      obtain ⟨_, hm, v', o', hv', he'⟩ := Async.exists_of_mem_joinAll hv he'
      obtain ⟨c, hc', rfl⟩ := List.mem_map.mp hm
      exact hc.1 c hc' u _ v' o' hu hv' e he f hf e' he' g hg

/-! ### Entries with keys -/

section Keys

variable {K M : Type} [DecidableEq K] {effect : K × M → S → S}

/-- **Only the order within each key matters** where effects of different keys commute. -/
theorem runAll_of_entriesOf : ∀ {l l' : List (K × M)}, (∀ a ∈ l, ∀ b ∈ l, a.1 ≠ b.1 →
    Function.Commute (effect a) (effect b)) → (∀ k, entriesOf k l = entriesOf k l') →
      runAll (l.map effect) = runAll (l'.map effect)
  | [], l', _, h => by
    have hnil : l' = [] := by
      rw [List.eq_nil_iff_forall_not_mem]
      rintro ⟨k, m⟩ hm
      exact absurd (h k ▸ mem_entriesOf.mpr hm) List.not_mem_nil
    rw [hnil]
  | (k, m) :: l, l', hc, h => by
    have hfirst : entriesOf k l' = m :: entriesOf k l := by rw [← h k, entriesOf_cons_self]
    obtain ⟨pre, post, rfl, hpre, hpost⟩ := exists_of_entriesOf_cons hfirst
    have hsame : ∀ k', entriesOf k' l = entriesOf k' (pre ++ post) := by
      intro k'
      by_cases hk : k = k'
      · subst hk
        rw [entriesOf_append, hpre, hpost, List.nil_append]
      · have hk' := h k'
        rwa [entriesOf_cons_of_ne hk, entriesOf_append, entriesOf_cons_of_ne hk, ← entriesOf_append] at hk'
    have hmove : Function.Commute (runAll (pre.map effect)) (effect (k, m)) := by
      refine commute_runAll fun f hf => ?_
      obtain ⟨⟨k', m'⟩, hm', rfl⟩ := List.mem_map.mp hf
      have hne : k ≠ k' := by
        rintro rfl
        exact absurd (hpre ▸ mem_entriesOf.mpr hm') List.not_mem_nil
      have hin : (k', m') ∈ l :=
        mem_entriesOf.mp (hsame k' ▸ mem_entriesOf.mpr (List.mem_append_left _ hm'))
      exact hc _ (List.mem_cons_of_mem _ hin) _ List.mem_cons_self fun he => hne he.symm
    have hrest := runAll_of_entriesOf (fun a ha b hb => hc a (List.mem_cons_of_mem _ ha) b
      (List.mem_cons_of_mem _ hb)) hsame
    rw [List.map_cons, runAll_cons, hrest, List.map_append, List.map_append, List.map_cons, runAll_append,
      runAll_append, runAll_cons, Function.comp_assoc, Function.comp_assoc, hmove.comp_eq]

/-- Entries are sorted by their keys. -/
theorem runAll_by_key {keys : List K} (hnodup : keys.Nodup) {l : List (K × M)} (hkeys : ∀ e ∈ l, e.1 ∈ keys)
    (hc : ∀ a ∈ l, ∀ b ∈ l, a.1 ≠ b.1 → Function.Commute (effect a) (effect b)) :
    runAll (l.map effect) = runAll (keys.map fun k => runAll ((entriesOf k l).map fun m => effect (k, m))) := by
  have hsame : ∀ k, entriesOf k l = entriesOf k (keys.flatMap fun k' => (entriesOf k' l).map (k', ·)) := by
    intro k
    rw [entriesOf_flatMap hnodup]
    split_ifs with hk
    · rfl
    · rw [List.eq_nil_iff_forall_not_mem]
      exact fun m hm => hk (hkeys _ (mem_entriesOf.mp hm))
  rw [runAll_of_entriesOf hc hsame, List.map_flatMap, runAll_flatMap]
  congr 2
  funext k
  rw [List.map_map]
  rfl

end Keys

/-! ### Sorting -/

section Sorted

variable [LinearOrder β] {F : β → S → S}

theorem runAll_orderedInsert {b : β} : ∀ {l : List β},
    (∀ c ∈ l, c < b → Function.Commute (F b) (F c)) →
      runAll ((l.orderedInsert (· ≤ ·) b).map F) = runAll (l.map F) ∘ F b
  | [], _ => rfl
  | c :: l, h => by
    by_cases hbc : b ≤ c
    · rw [List.orderedInsert_cons_of_le _ _ hbc]
      rfl
    · rw [List.orderedInsert_of_not_le _ _ hbc, List.map_cons, List.map_cons, runAll_cons, runAll_cons,
        runAll_orderedInsert fun c hc => h c (List.mem_cons_of_mem _ hc), Function.comp_assoc,
        Function.comp_assoc, (h c List.mem_cons_self (lt_of_not_ge hbc)).comp_eq]

/-- **A list whose reversed pairs commute** has the effect of the sorted list. -/
theorem runAll_insertionSort {l : List β}
    (h : l.Pairwise fun b c => c < b → Function.Commute (F b) (F c)) :
    runAll ((l.insertionSort (· ≤ ·)).map F) = runAll (l.map F) := by
  induction l with
  | nil => rfl
  | cons b l ih =>
    rw [List.pairwise_cons] at h
    rw [List.insertionSort_cons, runAll_orderedInsert fun c hc =>
      h.1 c ((List.mem_insertionSort _).mp hc), ih h.2]
    rfl

end Sorted

end Reorder

end Wakuwaku
