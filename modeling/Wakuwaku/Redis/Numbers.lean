import Wakuwaku.Redis.Server

/-! # Numbers of Lua as arguments

A script computes with the numbers of Lua, doubles that are exact below 2^53, and passes them to commands
in the format `%.17g`, which has an exponent from 10^17 on. An integer argument of a command must be the
decimal text of a signed 64-bit number. -/

namespace Wakuwaku.Redis

/-- How Lua rounds an integer to a number, and the text that a command gets for a number. -/
structure LuaNumbers where
  number : ℕ → ℕ
  text : ℕ → Bytes
  number_exact : ∀ n < 2 ^ 53, number n = n
  text_exact : ∀ n < 2 ^ 53, text n = decimal n

/-- Numbers without rounding. -/
def LuaNumbers.exact : LuaNumbers := ⟨id, decimal, fun _ _ => rfl, fun _ _ => rfl⟩

/-- An integer reply as a number. -/
def LuaNumbers.ofInt (numbers : LuaNumbers) : Int → Int
  | .ofNat n => numbers.number n
  | .negSucc n => -numbers.number (n + 1)

theorem LuaNumbers.ofInt_exact (numbers : LuaNumbers) {n : Int} (h : n.natAbs < 2 ^ 53) :
    numbers.ofInt n = n := by
  cases n with
  | ofNat n => exact congrArg Int.ofNat (numbers.number_exact n h)
  | negSucc n =>
    have he : numbers.number (n + 1) = n + 1 := numbers.number_exact _ h
    rw [LuaNumbers.ofInt, he]
    rfl

/-! ### Integer arguments -/

/-- A signed 64-bit number in decimal, without a plus sign or leading zeros. -/
def parseI64 : Bytes → Option Int
  | 45 :: digits => do
    let n ← parseDigits digits
    if decimal n = digits ∧ 0 < n ∧ n ≤ 2 ^ 63 then some (-n) else none
  | digits => do
    let n ← parseDigits digits
    if decimal n = digits ∧ n < 2 ^ 63 then some n else none

theorem parseI64_decimal {n : ℕ} (hn : n < 2 ^ 63) : parseI64 (decimal n) = some (n : Int) := by
  have hsign : ∀ rest, decimal n ≠ 45 :: rest := by
    intro rest h
    have := isDigitByte_of_mem_decimal (b := 45) (n := n) (by rw [h]; simp)
    exact absurd this (by decide)
  unfold parseI64
  split
  · next rest h => exact absurd h (hsign rest)
  · simp only [parseDigits_decimal, Option.bind_eq_bind, Option.bind_some, hn, and_self, if_true]

theorem parseDigits_of_mem {b : UInt8} {text : Bytes} (hb : b ∈ text) (hdigit : isDigitByte b = false) :
    parseDigits text = none := by
  cases hp : parseDigits text with
  | none => rfl
  | some n =>
    have hall := (parseDigits_eq_some_iff.mp hp).2.1 b hb
    rw [hdigit] at hall
    cases hall

/-- What has an exponent is no integer. -/
theorem parseI64_of_mem {text : Bytes} (he : 101 ∈ text) : parseI64 text = none := by
  have hdigit : isDigitByte 101 = false := by decide
  unfold parseI64
  split
  · next rest =>
    have hrest : 101 ∈ rest := (List.mem_cons.mp he).resolve_left (by decide)
    rw [parseDigits_of_mem hrest hdigit]
    rfl
  · rw [parseDigits_of_mem he hdigit]
    rfl

/-! ### Doubles -/

/-- The quotient rounded to the nearest number, of two equally near ones to the even one. -/
def roundDiv (n d : ℕ) : ℕ :=
  if 2 * (n % d) < d ∨ 2 * (n % d) = d ∧ n / d % 2 = 0 then n / d else n / d + 1

/-- A whole number as a double, with 53 bits. -/
def roundDouble (n : ℕ) : ℕ :=
  if n < 2 ^ 53 then n else roundDiv n (2 ^ (n.log2 - 52)) * 2 ^ (n.log2 - 52)

/-- A whole number in the format `%.17g`: of more than 17 digits the first ones, with an exponent. -/
def numberText (n : ℕ) : Bytes :=
  if n < 10 ^ 17 then decimal n
  else
    let dropped := (decimal n).length - 17
    let digits := decimal (roundDiv n (10 ^ dropped))
    let fraction := (digits.tail.reverse.dropWhile (· = 48)).reverse
    digits.take 1 ++ (if fraction = [] then [] else 46 :: fraction) ++
      101 :: 43 :: decimal (digits.length - 1 + dropped)

/-- The numbers of Lua. -/
def LuaNumbers.doubles : LuaNumbers where
  number := roundDouble
  text := numberText
  number_exact _ h := if_pos h
  text_exact _ h := if_pos (Nat.lt_trans h (by decide))

theorem parseI64_numberText {n : ℕ} (h : 10 ^ 17 ≤ n) : parseI64 (numberText n) = none := by
  refine parseI64_of_mem ?_
  rw [numberText, if_neg (Nat.not_lt.mpr h)]
  exact List.mem_append_right _ List.mem_cons_self

example : numberText (5 * 10 ^ 18 + 1) = asBytes "5e+18" := by decide +kernel

/-- `PEXPIRE key text`: a time that has passed removes the key. -/
def pexpireText (key text : Bytes) : Command ℕ :=
  match parseI64 text with
  | none => Command.fail (.server "ERR value is not an integer or out of range")
  | some (.ofNat ttl) => pexpire key ttl
  | some (.negSucc _) => del key

/-- The texts that `PEXPIRE` does not accept. -/
def expiryRefused (now : ℕ) (text : Bytes) : Prop :=
  match parseI64 text with
  | none => True
  | some (.ofNat ttl) => outOfRange now ttl
  | some (.negSucc _) => False

instance (now : ℕ) (text : Bytes) : Decidable (expiryRefused now text) := by
  unfold expiryRefused
  split <;> infer_instance

variable {server : Server} {key text : Bytes}

theorem pexpireText_decimal {ttl : ℕ} (h : ttl < 2 ^ 63) : pexpireText key (decimal ttl) = pexpire key ttl := by
  rw [pexpireText, parseI64_decimal h]

theorem expiryRefused_decimal {now ttl : ℕ} (h : ttl < 2 ^ 63) :
    expiryRefused now (decimal ttl) ↔ outOfRange now ttl := by
  rw [expiryRefused, parseI64_decimal h]

/-- A whole number is no time if its text has an exponent, or if the time is out of range. -/
theorem expiryRefused_numberText {now n : ℕ} :
    expiryRefused now (numberText n) ↔ 10 ^ 17 ≤ n ∨ outOfRange now n := by
  by_cases hn : n < 10 ^ 17
  · have htext : numberText n = decimal n := if_pos hn
    rw [htext, expiryRefused_decimal (Nat.lt_trans hn (by decide)), or_iff_right (Nat.not_le.mpr hn)]
  · rw [expiryRefused, parseI64_numberText (Nat.not_lt.mp hn)]
    exact iff_of_true trivial (Or.inl (Nat.not_lt.mp hn))

theorem pexpireText_of_refused (key : Bytes) (h : expiryRefused server.now text) : ∃ error,
    pexpireText key text server = (.error error, server) := by
  unfold expiryRefused at h
  unfold pexpireText
  cases hp : parseI64 text with
  | none => exact ⟨_, rfl⟩
  | some n =>
    rw [hp] at h
    cases n with
    | ofNat ttl => exact pexpire_of_out key h
    | negSucc n => cases h

theorem pexpireText_of_accepted (key : Bytes) (h : ¬ expiryRefused server.now text) : ∃ n server',
    pexpireText key text server = (.ok n, server') := by
  unfold expiryRefused at h
  unfold pexpireText
  cases hp : parseI64 text with
  | none => simp [hp] at h
  | some n =>
    rw [hp] at h
    cases n with
    | ofNat ttl => exact pexpire_of_in key h
    | negSucc n => exact ⟨_, _, del_apply⟩

end Wakuwaku.Redis
