import Wakuwaku.Iggy.Events
import Mathlib.Logic.Function.Conjugate
import Mathlib.Data.List.Sort
import Mathlib.Data.List.Chain

/-! # Static algebra of event types

An algebra reduces a run of events of one type. The five markers are the only algebras of event
types; each asks for what its reduction uses, an equality, an order or a combination. If a marker's
law holds for what the events do to a state, the reduced run does the same as the run
(`Marker.reduce_sound`). -/

namespace Wakuwaku.Iggy.Partition

open Wakuwaku.Iggy.Events

/-- `Algebra<E>`: the value in the message header, and the reduction of a run. -/
structure Algebra (E : Type) where
  associativity : EventAssociativity
  reduce : List E → List E

/-! ### What the markers ask for -/

/-- `Eq`: an equality that is an equivalence. -/
structure EqImpl (E : Type) where
  eq : E → E → Bool
  refl : ∀ a, eq a a = true
  symm : ∀ a b, eq a b = true → eq b a = true
  trans : ∀ a b c, eq a b = true → eq b c = true → eq a c = true

/-- `Ord`: a total order whose equivalence is the equality. `sortUnstable` leaves equal elements in
any order. -/
structure OrdImpl (E : Type) extends EqImpl E where
  le : E → E → Bool
  le_trans : ∀ a b c, le a b = true → le b c = true → le a c = true
  le_total : ∀ a b, le a b = true ∨ le b a = true
  eq_iff : ∀ a b, eq a b = true ↔ le a b = true ∧ le b a = true
  sortUnstable : List E → List E
  sort_perm : ∀ run, (sortUnstable run).Perm run
  sort_sorted : ∀ run, (sortUnstable run).Pairwise fun a b => le a b = true

/-! ### The markers -/

/-- `Vec::dedup` after the kept element `last`. -/
def dedupAfter {E : Type} (eq : E → E → Bool) (last : E) : List E → List E
  | [] => []
  | a :: rest => if eq a last then dedupAfter eq last rest else a :: dedupAfter eq a rest

/-- `Vec::dedup`: remove every element that equals the last one kept. -/
def dedup {E : Type} (eq : E → E → Bool) : List E → List E
  | [] => []
  | a :: rest => a :: dedupAfter eq a rest

/-- Fold a run into one event. -/
def foldRun {E : Type} (combine : E → E → E) : List E → List E
  | [] => []
  | a :: rest => [rest.foldl combine a]

/-- The marker types. -/
inductive Marker (E : Type) where
  | nonAssociative
  | commutative
  | idempotent (eq : EqImpl E)
  | idempotentCommutative (ord : OrdImpl E)
  | associative (combine : E → E → E)

/-- The algebra of a marker. -/
def Marker.algebra {E : Type} : Marker E → Algebra E
  | .nonAssociative => ⟨.nonAssociative, id⟩
  | .commutative => ⟨.commutative, id⟩
  | .idempotent eq => ⟨.idempotent, dedup eq.eq⟩
  | .idempotentCommutative ord =>
    ⟨.idempotentCommutative, fun run => dedup ord.eq (ord.sortUnstable run)⟩
  | .associative combine => ⟨.associative, foldRun combine⟩

/-! ### Soundness of the reductions -/

section Sound

variable {E S : Type} (apply : E → S → S)

/-- Apply the events of a run in order. -/
def applyAll (run : List E) (s : S) : S := run.foldl (fun s e => apply e s) s

/-- The law of a marker, for the events in `events`. -/
def Marker.Law (events : E → Prop) : Marker E → Prop
  | .nonAssociative => True
  | .commutative => ∀ a b, events a → events b → Function.Commute (apply a) (apply b)
  | .idempotent eq => (∀ a, events a → ∀ s, apply a (apply a s) = apply a s) ∧
      ∀ a b, events a → events b → eq.eq a b = true → apply a = apply b
  | .idempotentCommutative ord => (∀ a, events a → ∀ s, apply a (apply a s) = apply a s) ∧
      (∀ a b, events a → events b → Function.Commute (apply a) (apply b)) ∧
      ∀ a b, events a → events b → ord.eq a b = true → apply a = apply b
  | .associative combine => ∀ a b, events a → events b → events (combine a b) ∧
      ∀ s, apply (combine a b) s = apply b (apply a s)

variable {apply} {events : E → Prop}

theorem applyAll_dedupAfter {eq : E → E → Bool} (hidem : ∀ a, events a → ∀ s, apply a (apply a s) = apply a s)
    (heq : ∀ a b, events a → events b → eq a b = true → apply a = apply b) :
    ∀ (run : List E) (last : E), (∀ a ∈ last :: run, events a) → ∀ s,
      applyAll apply (dedupAfter eq last run) (apply last s) = applyAll apply run (apply last s)
  | [], _, _, _ => rfl
  | a :: rest, last, h, s => by
    unfold dedupAfter
    split_ifs with hal
    · have he : apply a = apply last := heq a last (h a (by simp)) (h last (by simp)) hal
      rw [applyAll_dedupAfter hidem heq rest last (fun b hb => h b (by
        rcases List.mem_cons.mp hb with rfl | hb <;> simp [*])) s]
      show _ = applyAll apply rest (apply a (apply last s))
      rw [he, hidem last (h last (by simp))]
    · exact applyAll_dedupAfter hidem heq rest a (fun b hb => h b (List.mem_cons_of_mem _ hb)) _

theorem applyAll_dedup {eq : E → E → Bool} (hidem : ∀ a, events a → ∀ s, apply a (apply a s) = apply a s)
    (heq : ∀ a b, events a → events b → eq a b = true → apply a = apply b) (run : List E)
    (h : ∀ a ∈ run, events a) (s : S) : applyAll apply (dedup eq run) s = applyAll apply run s := by
  cases run with
  | nil => rfl
  | cons a rest => exact applyAll_dedupAfter hidem heq rest a h s

/-- A run of commuting events may be applied in any order. -/
theorem applyAll_perm {run run' : List E} (hp : run.Perm run')
    (hcomm : ∀ a ∈ run, ∀ b ∈ run, Function.Commute (apply a) (apply b)) (s : S) :
    applyAll apply run s = applyAll apply run' s := by
  refine hp.foldl_eq' (fun a ha b hb s => ?_) s
  exact (hcomm b hb a ha) s

theorem applyAll_foldl_combine {combine : E → E → E} (hc : ∀ a b, events a → events b →
    events (combine a b) ∧ ∀ s, apply (combine a b) s = apply b (apply a s)) :
    ∀ (run : List E) (a : E), events a → (∀ b ∈ run, events b) → ∀ s,
      apply (run.foldl combine a) s = applyAll apply run (apply a s)
  | [], _, _, _, _ => rfl
  | b :: rest, a, ha, h, s => by
    have hb := hc a b ha (h b (by simp))
    rw [List.foldl_cons, applyAll_foldl_combine hc rest _ hb.1 (fun c hc => h c (by simp [hc])), hb.2]
    rfl

/-- **Applying the reduced run has the effect of applying the run.** -/
theorem Marker.reduce_sound {m : Marker E} (law : m.Law apply events) {run : List E}
    (h : ∀ a ∈ run, events a) (s : S) :
    applyAll apply (m.algebra.reduce run) s = applyAll apply run s := by
  cases m with
  | nonAssociative => rfl
  | commutative => rfl
  | idempotent eq => exact applyAll_dedup law.1 law.2 run h s
  | idempotentCommutative ord =>
    have hp := ord.sort_perm run
    calc applyAll apply (dedup ord.eq (ord.sortUnstable run)) s
        = applyAll apply (ord.sortUnstable run) s :=
          applyAll_dedup law.1 law.2.2 _ (fun a ha => h a (hp.mem_iff.mp ha)) s
      _ = applyAll apply run s := applyAll_perm hp (fun a ha b hb =>
          law.2.1 a b (h a (hp.mem_iff.mp ha)) (h b (hp.mem_iff.mp hb))) s
  | associative combine =>
    cases run with
    | nil => rfl
    | cons a rest =>
      exact applyAll_foldl_combine law rest a (h a (by simp)) (fun b hb => h b (by simp [hb])) s

theorem sublist_dedupAfter {eq : E → E → Bool} : ∀ (run : List E) (last : E),
    (dedupAfter eq last run).Sublist run
  | [], _ => .slnil
  | a :: rest, last => by
    unfold dedupAfter
    split_ifs
    · exact (sublist_dedupAfter rest last).cons a
    · exact (sublist_dedupAfter rest a).cons_cons a

theorem sublist_dedup (eq : E → E → Bool) (run : List E) : (dedup eq run).Sublist run := by
  cases run with
  | nil => exact .slnil
  | cons a rest => exact (sublist_dedupAfter rest a).cons_cons a

theorem commute_foldl_combine {combine : E → E → E} {g : S → S} (hc : ∀ a b, events a → events b →
    events (combine a b) ∧ ∀ s, apply (combine a b) s = apply b (apply a s)) :
    ∀ (run : List E) (a : E), events a → (∀ b ∈ run, events b) → Function.Commute (apply a) g →
      (∀ b ∈ run, Function.Commute (apply b) g) → Function.Commute (apply (run.foldl combine a)) g
  | [], _, _, _, hg, _ => hg
  | b :: rest, a, ha, h, hg, hgs => by
    have hb := hc a b ha (h b (by simp))
    refine commute_foldl_combine hc rest _ hb.1 (fun c hc => h c (by simp [hc])) (fun s => ?_)
      (fun c hc => hgs c (by simp [hc]))
    rw [hb.2, hb.2, hg s, hgs b (by simp)]

/-- What commutes with a run commutes with each event of the reduced run. -/
theorem Marker.commute_reduce {m : Marker E} (law : m.Law apply events) {run : List E}
    (h : ∀ a ∈ run, events a) {g : S → S} (hg : ∀ a ∈ run, Function.Commute (apply a) g) :
    ∀ a ∈ m.algebra.reduce run, Function.Commute (apply a) g := by
  intro a ha
  cases m with
  | nonAssociative => exact hg a ha
  | commutative => exact hg a ha
  | idempotent eq => exact hg a ((sublist_dedup eq.eq run).subset ha)
  | idempotentCommutative ord =>
    have hmem := (sublist_dedup ord.eq (ord.sortUnstable run)).subset ha
    exact hg a ((ord.sort_perm run).mem_iff.mp hmem)
  | associative combine =>
    cases run with
    | nil => cases ha
    | cons b rest =>
      rw [List.mem_singleton.mp ha]
      exact commute_foldl_combine law rest b (h b (by simp)) (fun c hc => h c (by simp [hc]))
        (hg b (by simp)) (fun c hc => hg c (by simp [hc]))

end Sound

/-! ### Reduced runs -/

section Reduced

variable {E : Type}

/-- A run that a marker leaves as it is. -/
def Marker.Reduced : Marker E → List E → Prop
  | .nonAssociative, _ => True
  | .commutative, _ => True
  | .idempotent eq, run => run.IsChain fun last a => eq.eq a last = false
  | .idempotentCommutative ord, run => run.Pairwise fun a b => ord.le a b = true ∧ ord.eq a b = false
  | .associative _, run => run.length ≤ 1

theorem isChain_dedupAfter {eq : E → E → Bool} : ∀ (run : List E) (last : E),
    (last :: dedupAfter eq last run).IsChain fun last a => eq a last = false
  | [], last => List.isChain_singleton last
  | a :: rest, last => by
    unfold dedupAfter
    split_ifs with hal
    · exact isChain_dedupAfter rest last
    · exact List.isChain_cons_cons.mpr ⟨Bool.eq_false_iff.mpr hal, isChain_dedupAfter rest a⟩

/-- Neighbours differ in a run without repetitions. -/
theorem isChain_dedup (eq : E → E → Bool) (run : List E) :
    (dedup eq run).IsChain fun last a => eq a last = false := by
  cases run with
  | nil => exact List.isChain_nil
  | cons a rest => exact isChain_dedupAfter rest a

theorem dedupAfter_eq {eq : E → E → Bool} : ∀ {run : List E} {last : E},
    ((last :: run).IsChain fun last a => eq a last = false) → dedupAfter eq last run = run
  | [], _, _ => rfl
  | a :: rest, last, h => by
    obtain ⟨hal, hrest⟩ := List.isChain_cons_cons.mp h
    unfold dedupAfter
    rw [if_neg (Bool.eq_false_iff.mp hal), dedupAfter_eq hrest]

/-- A run whose neighbours differ has nothing to remove. -/
theorem dedup_eq {eq : E → E → Bool} {run : List E} (h : run.IsChain fun last a => eq a last = false) :
    dedup eq run = run := by
  cases run with
  | nil => rfl
  | cons a rest => exact congrArg (a :: ·) (dedupAfter_eq h)

/-- A sorted run without repetitions increases strictly. -/
theorem OrdImpl.pairwise_dedup (ord : OrdImpl E) {run : List E}
    (h : run.Pairwise fun a b => ord.le a b = true) :
    (dedup ord.eq run).Pairwise fun a b => ord.le a b = true ∧ ord.eq a b = false := by
  let lt : E → E → Prop := fun a b => ord.le a b = true ∧ ord.eq a b = false
  have : Trans lt lt lt := ⟨by
    rintro a b c ⟨hab, hne⟩ ⟨hbc, -⟩
    refine ⟨ord.le_trans a b c hab hbc, Bool.eq_false_iff.mpr fun hac => Bool.eq_false_iff.mp hne ?_⟩
    -- between equal elements everything is equal
    exact (ord.eq_iff a b).mpr ⟨hab, ord.le_trans b c a hbc ((ord.eq_iff a c).mp hac).2⟩⟩
  have hsorted : (dedup ord.eq run).IsChain fun a b => ord.le a b = true :=
    (h.sublist (sublist_dedup ord.eq run)).isChain
  refine List.IsChain.pairwise (R := lt) (List.isChain_iff_getElem.mpr fun i hi => ?_)
  refine ⟨List.isChain_iff_getElem.mp hsorted i hi, Bool.eq_false_iff.mpr fun heq => ?_⟩
  have hne := List.isChain_iff_getElem.mp (isChain_dedup ord.eq run) i hi
  exact Bool.eq_false_iff.mp hne (ord.symm _ _ heq)

/-- A strictly increasing run is sorted. -/
theorem OrdImpl.sortUnstable_eq (ord : OrdImpl E) {run : List E}
    (h : run.Pairwise fun a b => ord.le a b = true ∧ ord.eq a b = false) : ord.sortUnstable run = run := by
  have hmem : ∀ a, a ∈ ord.sortUnstable run → a ∈ run := fun a => (ord.sort_perm run).mem_iff.mp
  refine List.Perm.eq_of_pairwise ?_ (ord.sort_sorted run) (h.imp And.left) (ord.sort_perm run)
  intro a b ha hb hab hba
  -- elements in different places are not equal
  have hplace : ∀ {x y}, x ∈ run → y ∈ run → ord.eq x y = true → x = y := by
    intro x y hx hy
    refine List.Pairwise.forall_of_forall_of_flip (R := fun x y => ord.eq x y = true → x = y)
      (fun _ _ _ => rfl) (h.imp fun hxy heq => ?_) (h.imp fun hxy heq => ?_) hx hy
    · rw [hxy.2] at heq
      cases heq
    · rw [ord.symm _ _ heq] at hxy
      cases hxy.2
  exact hplace (hmem a ha) hb ((ord.eq_iff a b).mpr ⟨hab, hba⟩)

variable {m : Marker E} {run : List E}

theorem Marker.reduced_reduce (m : Marker E) (run : List E) : m.Reduced (m.algebra.reduce run) := by
  cases m with
  | nonAssociative => trivial
  | commutative => trivial
  | idempotent eq => exact isChain_dedup eq.eq run
  | idempotentCommutative ord => exact ord.pairwise_dedup (ord.sort_sorted run)
  | associative combine => cases run <;> simp [Marker.Reduced, Marker.algebra, foldRun]

theorem Marker.Reduced.drop (h : m.Reduced run) (n : ℕ) : m.Reduced (run.drop n) := by
  cases m with
  | nonAssociative => trivial
  | commutative => trivial
  | idempotent eq => exact List.IsChain.drop h n
  | idempotentCommutative ord => exact List.Pairwise.drop h
  | associative combine =>
    exact (List.length_drop ▸ Nat.sub_le _ _ : (run.drop n).length ≤ run.length).trans h

/-- **A reduced run is left as it is.** -/
theorem Marker.Reduced.reduce_eq (h : m.Reduced run) : m.algebra.reduce run = run := by
  cases m with
  | nonAssociative => rfl
  | commutative => rfl
  | idempotent eq => exact dedup_eq h
  | idempotentCommutative ord =>
    show dedup ord.eq (ord.sortUnstable run) = run
    rw [ord.sortUnstable_eq h]
    refine dedup_eq (List.Pairwise.isChain (h.imp fun hab => ?_))
    exact Bool.eq_false_iff.mpr fun hba => Bool.eq_false_iff.mp hab.2 (ord.symm _ _ hba)
  | associative combine =>
    match run, h with
    | [], _ => rfl
    | [_], _ => rfl

/-- What is left of a reduced run is reduced. -/
theorem Marker.reduce_drop_reduce (m : Marker E) (run : List E) (n : ℕ) :
    m.algebra.reduce ((m.algebra.reduce run).drop n) = (m.algebra.reduce run).drop n :=
  ((m.reduced_reduce run).drop n).reduce_eq

end Reduced

/-- The order of the naturals. -/
def natOrd : OrdImpl ℕ where
  eq a b := a == b
  refl := by simp
  symm := by simp
  trans := by simp
  le a b := decide (a ≤ b)
  le_trans a b c hab hbc := by simp only [decide_eq_true_eq] at *; omega
  le_total a b := by simp only [decide_eq_true_eq]; omega
  eq_iff a b := by simp only [beq_iff_eq, decide_eq_true_eq]; omega
  sortUnstable run := run.insertionSort (· ≤ ·)
  sort_perm run := List.perm_insertionSort _ run
  sort_sorted run := (List.pairwise_insertionSort _ run).imp fun h => by simpa using h

/-- **Reduction is sound for every marker**: if its law holds of all events, the state after the
reduced run is the state after the run. -/
theorem Marker.state_of_reduce {E S : Type} (m : Marker E) (apply : E → S → S)
    (law : m.Law apply fun _ => True) (run : List E) (s : S) :
    applyAll apply (m.algebra.reduce run) s = applyAll apply run s :=
  Marker.reduce_sound law (fun _ _ => trivial) s

/-- Events that assign a value, collapsed next to each other only. -/
theorem Marker.state_of_reduce_assign :
    applyAll (fun (a : ℕ) (_ : ℕ) => a) ((Marker.idempotent natOrd.toEqImpl).algebra.reduce [1, 1, 2, 1, 1]) 0 =
      applyAll (fun (a : ℕ) (_ : ℕ) => a) [1, 1, 2, 1, 1] 0 := by
  refine Marker.state_of_reduce (.idempotent natOrd.toEqImpl) (fun a _ => a) ⟨fun _ _ _ => rfl, ?_⟩
    [1, 1, 2, 1, 1] 0
  intro a b _ _ hab
  rw [show a = b by simpa [natOrd] using hab]

end Wakuwaku.Iggy.Partition
