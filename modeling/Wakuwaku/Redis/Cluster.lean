import Wakuwaku.Redis.Text
import Mathlib.Logic.Function.Iterate
import Mathlib.Algebra.Group.Nat.Defs

/-! # Hash slots

On a cluster a key lives in the slot of the part of it that is hashed: what stands between its first
`{` and the first `}` after that, if anything does, and the whole key otherwise. Commands on several keys
need them in one slot. -/

namespace Wakuwaku.Redis

def openBrace : UInt8 := charByte '\x7b'

def closeBrace : UInt8 := charByte '\x7d'

/-- What stands between the first `{` and the first `}` after it. -/
def hashTag (key : Bytes) : Option Bytes :=
  match key.dropWhile (· ≠ openBrace) with
  | [] => none
  | _ :: rest => if closeBrace ∈ rest then some (rest.takeWhile (· ≠ closeBrace)) else none

/-- The part of a key that is hashed. -/
def hashedPart (key : Bytes) : Bytes :=
  match hashTag key with
  | none => key
  | some [] => key
  | some (b :: tag) => b :: tag

/-- One bit of `crc16`. -/
def crc16Bit (crc : ℕ) : ℕ :=
  if crc < 2 ^ 15 then 2 * crc else (2 * crc ^^^ 0x1021) % 2 ^ 16

/-- The checksum of the slots: polynomial 0x1021, the highest bit first. -/
def crc16 (bytes : Bytes) : ℕ :=
  bytes.foldl (fun crc b => crc16Bit^[8] (crc ^^^ b.toNat * 2 ^ 8)) 0

/-- The slot of a key. -/
def hashSlot (key : Bytes) : ℕ := crc16 (hashedPart key) % 2 ^ 14

example : crc16 (asBytes "123456789") = 0x31C3 := by decide +kernel

theorem hashTag_braces {before tag rest : Bytes} (hbefore : openBrace ∉ before) (htag : closeBrace ∉ tag) :
    hashTag (before ++ openBrace :: (tag ++ closeBrace :: rest)) = some tag := by
  have hopen : ∀ b ∈ before, decide (b ≠ openBrace) = true := by
    intro b hb
    exact decide_eq_true fun he => hbefore (he ▸ hb)
  have hclose : ∀ b ∈ tag, decide (b ≠ closeBrace) = true := by
    intro b hb
    exact decide_eq_true fun he => htag (he ▸ hb)
  unfold hashTag
  rw [List.dropWhile_append_of_pos hopen, List.dropWhile_cons_of_neg (by simp)]
  simp only [List.mem_append, List.mem_cons, true_or, or_true, if_true]
  rw [List.takeWhile_append_of_pos hclose, List.takeWhile_cons_of_neg (by simp), List.append_nil]

/-- **Two keys that are the same up to a `}` behind their first `{` are hashed alike exactly if they are
equal or something stands between the braces.** -/
theorem hashedPart_append_eq_iff {before inside x y : Bytes} (hbefore : openBrace ∉ before)
    (hinside : closeBrace ∈ inside) :
    hashedPart (before ++ openBrace :: inside ++ x) = hashedPart (before ++ openBrace :: inside ++ y) ↔
      x = y ∨ inside.head? ≠ some closeBrace := by
  obtain ⟨tag, rest, rfl, htag⟩ := List.eq_append_cons_of_mem hinside
  have htags : ∀ z, hashTag (before ++ openBrace :: (tag ++ closeBrace :: rest) ++ z) = some tag := by
    intro z
    have hz : before ++ openBrace :: (tag ++ closeBrace :: rest) ++ z =
        before ++ openBrace :: (tag ++ closeBrace :: (rest ++ z)) := by simp
    rw [hz, hashTag_braces hbefore htag]
  unfold hashedPart
  rw [htags x, htags y]
  cases tag with
  | nil => simp
  | cons b tag =>
    have hb : b ≠ closeBrace := fun he => htag (he ▸ List.mem_cons_self)
    simp [hb]

end Wakuwaku.Redis
