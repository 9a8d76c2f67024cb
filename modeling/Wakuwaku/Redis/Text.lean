import Mathlib.Data.Nat.Notation

/-! # Texts as bytes

Strings and numbers as the bytes that go over the wire: UTF-8, and decimal digits. A number reads
back from its digits (`parseDigits_decimal`). -/

namespace Wakuwaku.Redis

abbrev Bytes : Type := List UInt8

/-- The UTF-8 bytes of a string. -/
def asBytes (s : String) : Bytes := s.toList.flatMap String.utf8EncodeChar

/-- The byte of an ASCII character. -/
def charByte (c : Char) : UInt8 := c.toNat.toUInt8

/-- A number in decimal digits. -/
def decimal (n : ℕ) : Bytes := (Nat.toDigits 10 n).map charByte

/-- Whether a byte is a decimal digit. -/
def isDigitByte (b : UInt8) : Bool := 48 ≤ b.toNat && b.toNat ≤ 57

/-- The value of a text of digits. -/
def digitsValue (bytes : Bytes) : ℕ := bytes.foldl (fun n b => 10 * n + (b.toNat - 48)) 0

/-- The number a text of decimal digits stands for. -/
def parseDigits (bytes : Bytes) : Option ℕ :=
  if bytes.isEmpty || !bytes.all isDigitByte then none else some (digitsValue bytes)

theorem toNat_charByte {c : Char} (hc : c.isDigit = true) : (charByte c).toNat = c.toNat := by
  have h : c.toNat ≤ 57 := (Char.isDigit_iff_toNat.mp hc).2
  unfold charByte
  simp only [Nat.toUInt8_eq, UInt8.toNat_ofNat']
  omega

theorem isDigitByte_charByte {c : Char} (hc : c.isDigit = true) :
    isDigitByte (charByte c) = true := by
  obtain ⟨h1, h2⟩ := Char.isDigit_iff_toNat.mp hc
  unfold isDigitByte
  rw [toNat_charByte hc]
  simp only [Bool.and_eq_true, decide_eq_true_eq]
  exact ⟨h1, h2⟩

theorem isDigit_of_mem_toDigits {c : Char} {n : ℕ} (hc : c ∈ Nat.toDigits 10 n) :
    c.isDigit = true :=
  Nat.isDigit_of_mem_toDigits (by omega) (by omega) hc

theorem isDigitByte_of_mem_decimal {b : UInt8} {n : ℕ} (hb : b ∈ decimal n) :
    isDigitByte b = true := by
  obtain ⟨c, hc, rfl⟩ := List.mem_map.mp hb
  exact isDigitByte_charByte (isDigit_of_mem_toDigits hc)

theorem decimal_ne_nil (n : ℕ) : decimal n ≠ [] := by simp [decimal]

theorem digitsValue_map (cs : List Char) (hcs : ∀ c ∈ cs, c.isDigit = true) (start : ℕ) :
    (cs.map charByte).foldl (fun n b => 10 * n + (b.toNat - 48)) start =
      Nat.ofDigitChars 10 cs start := by
  induction cs generalizing start with
  | nil => rfl
  | cons c cs ih =>
    rw [Nat.ofDigitChars_cons, List.map_cons, List.foldl_cons, toNat_charByte (hcs c (by simp))]
    exact ih (fun d hd => hcs d (by simp [hd])) _

/-- **A number reads back from its decimal digits.** -/
theorem parseDigits_decimal (n : ℕ) : parseDigits (decimal n) = some n := by
  have hall : (decimal n).all isDigitByte = true :=
    List.all_eq_true.mpr fun b hb => isDigitByte_of_mem_decimal hb
  have hne : (decimal n).isEmpty = false := by simp [decimal_ne_nil]
  unfold parseDigits
  rw [hall, hne]
  have h := digitsValue_map _ (fun c hc => isDigit_of_mem_toDigits (n := n) hc) 0
  rw [Nat.ofDigitChars_ten_toDigits] at h
  exact congrArg some h

theorem parseDigits_eq_some_iff {bytes : Bytes} {n : ℕ} : parseDigits bytes = some n ↔
    bytes ≠ [] ∧ (∀ b ∈ bytes, isDigitByte b = true) ∧ digitsValue bytes = n := by
  unfold parseDigits
  by_cases h : (bytes.isEmpty || !bytes.all isDigitByte) = true
  · rw [if_pos h]
    refine ⟨fun hn => (nomatch hn), fun ⟨hne, hall, _⟩ => ?_⟩
    rw [List.isEmpty_eq_false_iff.mpr hne, List.all_eq_true.mpr hall] at h
    cases h
  · rw [if_neg h, Option.some.injEq]
    rw [Bool.or_eq_true, not_or, List.isEmpty_iff, Bool.not_eq_true', Bool.not_eq_false,
      List.all_eq_true] at h
    exact ⟨fun hn => ⟨h.1, h.2, hn⟩, fun hn => hn.2.2⟩

theorem decimal_injective {m n : ℕ} (h : decimal m = decimal n) : m = n := by
  have h' := congrArg parseDigits h
  rw [parseDigits_decimal, parseDigits_decimal] at h'
  exact Option.some.inj h'

@[simp] theorem decimal_inj {m n : ℕ} : decimal m = decimal n ↔ m = n :=
  ⟨decimal_injective, fun h => by rw [h]⟩

/-- Split at the first `-`. -/
def splitDash : Bytes → Option (Bytes × Bytes)
  | [] => none
  | b :: bytes =>
    if b = 45 then some ([], bytes)
    else (splitDash bytes).map fun parts => (b :: parts.1, parts.2)

theorem splitDash_append {first second : Bytes} (h : ∀ b ∈ first, isDigitByte b = true) :
    splitDash (first ++ 45 :: second) = some (first, second) := by
  induction first with
  | nil => rfl
  | cons b first ih =>
    have hb : b ≠ 45 := by
      rintro rfl
      exact absurd (h 45 (by simp)) (by decide)
    rw [List.cons_append, splitDash, if_neg hb, ih fun c hc => h c (by simp [hc])]
    rfl

theorem splitDash_eq_some_iff : ∀ {bytes first second : Bytes},
    splitDash bytes = some (first, second) ↔ bytes = first ++ 45 :: second ∧ 45 ∉ first
  | [], first, second => by simp [splitDash]
  | b :: bytes, first, second => by
    unfold splitDash
    by_cases hb : b = 45
    · subst hb
      rw [if_pos rfl, Option.some.injEq, Prod.mk.injEq]
      constructor
      · rintro ⟨rfl, rfl⟩
        exact ⟨rfl, List.not_mem_nil⟩
      · rintro ⟨heq, hfirst⟩
        cases first with
        | nil => exact ⟨rfl, (List.cons.inj heq).2⟩
        | cons c first => exact absurd ((List.cons.inj heq).1 ▸ List.mem_cons_self) hfirst
    · rw [if_neg hb, Option.map_eq_some_iff]
      constructor
      · rintro ⟨parts, hparts, heq⟩
        obtain ⟨rfl, rfl⟩ := Prod.mk.inj heq
        obtain ⟨rfl, hfirst⟩ := splitDash_eq_some_iff.mp hparts
        refine ⟨rfl, fun hmem => ?_⟩
        exact (List.mem_cons.mp hmem).elim (fun h => hb h.symm) hfirst
      · rintro ⟨heq, hfirst⟩
        cases first with
        | nil => exact absurd (List.cons.inj heq).1 hb
        | cons c first =>
          obtain ⟨rfl, rfl⟩ := List.cons.inj heq
          exact ⟨(first, second), splitDash_eq_some_iff.mpr ⟨rfl, fun h => hfirst (List.mem_cons_of_mem _ h)⟩, rfl⟩

end Wakuwaku.Redis
