import Mathlib.Data.List.Forall2

/-! # Parsers of a prefix

A parser reads a value from the front of a text and gives the rest of it. Values written one after
another with a separator between them read back (`sepBy_of_forall`), as long as what follows them
cannot be read as part of them. -/

namespace Wakuwaku

abbrev Text : Type := List Char

/-- Reads a value from the front of a text, with the rest of the text. -/
abbrev Parser (α : Type) : Type := Text → Option (α × Text)

variable {α : Type}

/-- The rest of a text after `word`. -/
def strip : Text → Text → Option Text
  | [], text => some text
  | _ :: _, [] => none
  | c :: word, d :: text => if c = d then strip word text else none

@[simp] theorem strip_append (word text : Text) : strip word (word ++ text) = some text := by
  induction word with
  | nil => rfl
  | cons c word ih => rw [List.cons_append, strip, if_pos rfl, ih]

/-- One or more values with `separator` between them, at most `fuel` of them. -/
def sepBy (separator : Text) (p : Parser α) : ℕ → Parser (List α)
  | 0, _ => none
  | fuel + 1, text => do
    let (a, rest) ← p text
    match strip separator rest with
    | none => return ([a], rest)
    | some rest =>
      let (others, rest) ← sepBy separator p fuel rest
      return (a :: others, rest)

/-- Texts with a separator before each. -/
def separated (separator : Text) (texts : List Text) : Text := texts.flatMap fun text => separator ++ text

/-- Texts with a separator between them. -/
def joined (separator : Text) : List Text → Text
  | [] => []
  | text :: texts => text ++ separated separator texts

theorem joined_singleton (separator text : Text) : joined separator [text] = text := List.append_nil text

theorem length_le_separated (separator : Text) {texts : List Text} (h : ∀ text ∈ texts, text ≠ []) :
    texts.length ≤ (separated separator texts).length := by
  induction texts with
  | nil => exact Nat.zero_le _
  | cons text texts ih =>
    have hpos : 0 < text.length := List.length_pos_iff.mpr (h text (by simp))
    have hle := ih fun t ht => h t (by simp [ht])
    unfold separated at hle ⊢
    rw [List.flatMap_cons, List.length_append, List.length_append, List.length_cons]
    omega

theorem joined_ne_nil (separator : Text) {texts : List Text} (hne : texts ≠ [])
    (h : ∀ text ∈ texts, text ≠ []) : joined separator texts ≠ [] := by
  cases texts with
  | nil => exact absurd rfl hne
  | cons text texts => exact List.append_ne_nil_of_left_ne_nil (h text (by simp)) _

theorem length_le_joined (separator : Text) {texts : List Text} {text : Text} (h : text ∈ texts) :
    text.length ≤ (joined separator texts).length := by
  have hrest : ∀ {texts}, text ∈ texts → text.length ≤ (separated separator texts).length := by
    intro texts hmem
    have hle : (separator ++ text).length ≤ (separated separator texts).length := by
      rw [separated, List.flatMap_def]
      exact (List.sublist_flatten_of_mem (List.mem_map_of_mem hmem)).length_le
    rw [List.length_append] at hle
    omega
  cases texts with
  | nil => cases h
  | cons first texts =>
    rw [joined, List.length_append]
    rcases List.mem_cons.mp h with rfl | h
    · omega
    · exact Nat.le_trans (hrest h) (Nat.le_add_left _ _)

/-- A text reads as a value, before a rest that `good` allows. -/
def ReadsAs (p : Parser α) (good : Text → Prop) (text : Text) (a : α) : Prop :=
  ∀ rest, good rest → p (text ++ rest) = some (a, rest)

/-- **Values with separators between them read back.** -/
theorem sepBy_of_forall {separator : Text} {p : Parser α} {good : Text → Prop} {text : Text} {a : α}
    {texts : List Text} {others : List α} {fuel : ℕ} (hsep : ∀ rest, good (separator ++ rest))
    (hfirst : ReadsAs p good text a) (hothers : List.Forall₂ (ReadsAs p good) texts others)
    (hfuel : texts.length < fuel) : ReadsAs (sepBy separator p fuel)
      (fun rest => good rest ∧ strip separator rest = none) (joined separator (text :: texts))
      (a :: others) := by
  unfold joined
  rintro rest ⟨hgood, hnone⟩
  obtain ⟨fuel, rfl⟩ : ∃ n, fuel = n + 1 := ⟨fuel - 1, by omega⟩
  induction hothers generalizing text a fuel with
  | nil =>
    have hp : p (text ++ separated separator [] ++ rest) = some (a, rest) := by
      rw [separated, List.flatMap_nil, List.append_nil]
      exact hfirst rest hgood
    simp only [sepBy, hp, Option.bind_eq_bind, Option.bind_some, hnone]
    rfl
  | @cons next b texts others hnext _ ih =>
    rw [List.length_cons] at hfuel
    obtain ⟨fuel, rfl⟩ : ∃ n, fuel = n + 1 := ⟨fuel - 1, by omega⟩
    have hsplit : text ++ separated separator (next :: texts) ++ rest =
        text ++ (separator ++ (next ++ separated separator texts ++ rest)) := by
      simp only [separated, List.flatMap_cons, List.append_assoc]
    have hp := hfirst (separator ++ (next ++ separated separator texts ++ rest)) (hsep _)
    have hrest := ih hnext fuel (by omega)
    rw [hsplit, sepBy]
    simp only [hp, Option.bind_eq_bind, Option.bind_some, strip_append, hrest]
    rfl

/-- The same, where the length of what is read bounds the number of the values. -/
theorem sepBy_joined {separator : Text} {p : Parser α} {good : Text → Prop} {texts : List Text}
    {values : List α} (hsep : ∀ rest, good (separator ++ rest)) (h : List.Forall₂ (ReadsAs p good) texts values)
    (hne : texts ≠ []) (htexts : ∀ text ∈ texts, text ≠ []) {rest : Text} (hrest : good rest)
    (hnone : strip separator rest = none) : sepBy separator p (joined separator texts ++ rest).length
      (joined separator texts ++ rest) = some (values, rest) := by
  cases h with
  | nil => exact absurd rfl hne
  | @cons text a texts others hfirst hothers =>
    obtain ⟨htext, htexts⟩ := List.forall_mem_cons.mp htexts
    have hpos : 0 < text.length := List.length_pos_iff.mpr htext
    have hle := length_le_separated separator htexts
    refine sepBy_of_forall hsep hfirst hothers ?_ rest ⟨hrest, hnone⟩
    rw [joined, List.length_append, List.length_append]
    omega

end Wakuwaku
