import Mathlib.Data.List.Induction
import Mathlib.Data.List.Flatten
import Mathlib.Tactic.SplitIfs

/-! # Cutting a list into parts

The elements of a list are taken in one after another. Each joins the last part, unless it cuts that
part off, which depends on the part so far, and starts a new one (`cutInto`). The parts give back the
list (`flatten_cutInto`), they only depend on what the elements are cut by (`cutInto_map`), and two
neighbours are parted iff the second cuts off the part of the first (`cutInto_neighbours`). -/

namespace Wakuwaku

variable {α β : Type} {cuts : List α → α → Bool}

/-- Take in `a`. -/
def addPart (cuts : List α → α → Bool) (parts : List (List α)) (a : α) : List (List α) :=
  match parts.getLast? with
  | none => [[a]]
  | some last => if cuts last a then parts ++ [[a]] else parts.dropLast ++ [last ++ [a]]

/-- The parts of a list. -/
def cutInto (cuts : List α → α → Bool) (l : List α) : List (List α) := l.foldl (addPart cuts) []

@[simp] theorem addPart_nil (a : α) : addPart cuts [] a = [[a]] := rfl

theorem addPart_concat (parts : List (List α)) (last : List α) (a : α) :
    addPart cuts (parts ++ [last]) a =
      if cuts last a then parts ++ [last, [a]] else parts ++ [last ++ [a]] := by
  unfold addPart
  simp only [List.getLast?_append, List.getLast?_singleton, Option.or, List.dropLast_concat,
    List.append_assoc, List.singleton_append]

@[simp] theorem cutInto_nil : cutInto cuts [] = [] := rfl

theorem cutInto_concat (l : List α) (a : α) :
    cutInto cuts (l ++ [a]) = addPart cuts (cutInto cuts l) a := by
  simp only [cutInto, List.foldl_append, List.foldl_cons, List.foldl_nil]

variable (cuts) in
/-- The last element is that of the last part. -/
theorem exists_last_part : ∀ {l : List α}, l ≠ [] →
    ∃ parts last, cutInto cuts l = parts ++ [last] ∧ last.getLast? = l.getLast? := by
  intro l
  induction l using List.reverseRecOn with
  | nil => exact fun h => absurd rfl h
  | append_singleton l a ih =>
    intro _
    rw [cutInto_concat, List.getLast?_concat]
    by_cases hl : l = []
    · subst hl
      exact ⟨[], [a], rfl, rfl⟩
    · obtain ⟨parts, last, hp, -⟩ := ih hl
      rw [hp, addPart_concat]
      split_ifs
      · exact ⟨parts ++ [last], [a], by simp, rfl⟩
      · exact ⟨parts, last ++ [a], rfl, List.getLast?_concat⟩

/-- **The parts give back the list.** -/
theorem flatten_cutInto (l : List α) : (cutInto cuts l).flatten = l := by
  induction l using List.reverseRecOn with
  | nil => rfl
  | append_singleton l a ih =>
    rw [cutInto_concat]
    by_cases hl : l = []
    · subst hl
      rfl
    · obtain ⟨parts, last, hp, -⟩ := exists_last_part cuts hl
      rw [hp] at ih ⊢
      rw [addPart_concat]
      split_ifs <;>
        simp only [← ih, List.flatten_append, List.flatten_cons, List.flatten_nil, List.append_nil,
          List.append_assoc]

/-- Every part is a sublist. -/
theorem sublist_of_mem_cutInto {p l : List α} (h : p ∈ cutInto cuts l) : p.Sublist l := by
  have hs := List.sublist_flatten_of_mem h
  rwa [flatten_cutInto] at hs

theorem addPart_map (f : α → β) {cuts : List β → β → Bool} (parts : List (List α)) (a : α) :
    addPart cuts (parts.map (List.map f)) (f a) =
      (addPart (fun p a => cuts (p.map f) (f a)) parts a).map (List.map f) := by
  rcases List.eq_nil_or_concat parts with rfl | ⟨parts, last, rfl⟩
  · rfl
  · rw [List.concat_eq_append, List.map_append, List.map_singleton, addPart_concat, addPart_concat]
    split_ifs <;> simp

/-- **The parts only depend on what the elements are cut by.** -/
theorem cutInto_map (f : α → β) (cuts : List β → β → Bool) (l : List α) :
    cutInto cuts (l.map f) = (cutInto (fun p a => cuts (p.map f) (f a)) l).map (List.map f) := by
  induction l using List.reverseRecOn with
  | nil => rfl
  | append_singleton l a ih =>
    rw [List.map_append, List.map_singleton, cutInto_concat, ih, addPart_map, cutInto_concat]

/-! ### Neighbours -/

variable (cuts) in
/-- What is taken in later extends the last part and starts new ones. -/
theorem foldl_addPart : ∀ (l : List α) (parts : List (List α)) (last : List α),
    ∃ more rest, l.foldl (addPart cuts) (parts ++ [last]) = parts ++ (last ++ more) :: rest ∧
      ∀ a ∈ more.head?, cuts last a = false
  | [], parts, last => ⟨[], [], by simp, by simp⟩
  | a :: l, parts, last => by
    rw [List.foldl_cons, addPart_concat]
    cases hc : cuts last a with
    | true =>
      obtain ⟨more, rest, h, -⟩ := foldl_addPart l (parts ++ [last]) [a]
      refine ⟨[], ([a] ++ more) :: rest, ?_, by simp⟩
      simpa using h
    | false =>
      obtain ⟨more, rest, h, -⟩ := foldl_addPart l parts (last ++ [a])
      refine ⟨a :: more, rest, ?_, ?_⟩
      · simpa using h
      · rintro b hb
        rw [List.head?_cons, Option.mem_some_iff] at hb
        rw [← hb, hc]

variable (cuts) in
/-- **Two neighbours** are in one part unless the second cuts off the part of the first. -/
theorem cutInto_neighbours (l : List α) (a b : α) (l' : List α) : ∃ parts p,
    p.getLast? = some a ∧
      ((cuts p b = true ∧ ∃ more rest,
        cutInto cuts (l ++ a :: b :: l') = parts ++ p :: (b :: more) :: rest) ∨
      (cuts p b = false ∧ ∃ more rest,
        cutInto cuts (l ++ a :: b :: l') = parts ++ (p ++ b :: more) :: rest ∧
          ∀ c ∈ more.head?, cuts (p ++ [b]) c = false)) := by
  obtain ⟨parts, p, hp, hlast⟩ := exists_last_part cuts (l := l ++ [a]) (by simp)
  have hcut : cutInto cuts (l ++ a :: b :: l') =
      l'.foldl (addPart cuts) (addPart cuts (cutInto cuts (l ++ [a])) b) := by
    simp only [cutInto, List.foldl_append, List.foldl_cons, List.foldl_nil]
  rw [hp, addPart_concat] at hcut
  refine ⟨parts, p, by rw [hlast, List.getLast?_concat], ?_⟩
  cases hc : cuts p b with
  | true =>
    obtain ⟨more, rest, h, -⟩ := foldl_addPart cuts l' (parts ++ [p]) [b]
    refine Or.inl ⟨rfl, more, rest, ?_⟩
    rw [hcut, hc]
    simpa using h
  | false =>
    obtain ⟨more, rest, h, hmore⟩ := foldl_addPart cuts l' parts (p ++ [b])
    refine Or.inr ⟨rfl, more, rest, ?_, hmore⟩
    rw [hcut, hc]
    simpa using h

end Wakuwaku
