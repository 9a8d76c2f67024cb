import Mathlib.Algebra.Group.Nat.Defs

/-! # Integers as little-endian bytes

The bytes of a number, least significant first, and back. Between the numbers below `256 ^ w` and
the lists of `w` bytes the two are inverse to each other (`ofLeBytes_toLeBytes`,
`toLeBytes_ofLeBytes`), which gives one iff per integer type. -/

namespace Wakuwaku

/-- The last `w` bytes of `n`, least significant first. -/
def toLeBytes : ℕ → ℕ → List UInt8
  | 0, _ => []
  | w + 1, n => UInt8.ofNat n :: toLeBytes w (n / 256)

/-- The number with these bytes. -/
def ofLeBytes : List UInt8 → ℕ
  | [] => 0
  | b :: bytes => b.toNat + 256 * ofLeBytes bytes

@[simp] theorem length_toLeBytes : ∀ w n : ℕ, (toLeBytes w n).length = w
  | 0, _ => rfl
  | w + 1, n => congrArg (· + 1) (length_toLeBytes w (n / 256))

theorem ofLeBytes_lt : ∀ bytes : List UInt8, ofLeBytes bytes < 256 ^ bytes.length
  | [] => Nat.one_pos
  | b :: bytes => by
    have ih := ofLeBytes_lt bytes
    have hb := b.toNat_lt
    rw [List.length_cons, pow_succ, ofLeBytes]
    omega

theorem ofLeBytes_toLeBytes : ∀ {w n : ℕ}, n < 256 ^ w → ofLeBytes (toLeBytes w n) = n
  | 0, n, h => by
    rw [pow_zero] at h
    rw [toLeBytes, ofLeBytes]
    omega
  | w + 1, n, h => by
    have hn : n / 256 < 256 ^ w := by
      rw [pow_succ] at h
      omega
    rw [toLeBytes, ofLeBytes, ofLeBytes_toLeBytes hn, UInt8.toNat_ofNat']
    omega

theorem toLeBytes_ofLeBytes : ∀ bytes : List UInt8, toLeBytes bytes.length (ofLeBytes bytes) = bytes
  | [] => rfl
  | b :: bytes => by
    have hb := b.toNat_lt
    have hn : UInt8.ofNat (b.toNat + 256 * ofLeBytes bytes) = b := by
      refine UInt8.toNat_inj.mp ?_
      rw [UInt8.toNat_ofNat']
      omega
    have hd : (b.toNat + 256 * ofLeBytes bytes) / 256 = ofLeBytes bytes := by omega
    rw [List.length_cons, toLeBytes, ofLeBytes, hn, hd, toLeBytes_ofLeBytes bytes]

/-- A list of `w` bytes is that of one number. -/
theorem eq_toLeBytes_iff {w n : ℕ} (hn : n < 256 ^ w) {bytes : List UInt8} :
    bytes = toLeBytes w n ↔ bytes.length = w ∧ ofLeBytes bytes = n := by
  constructor
  · rintro rfl
    exact ⟨length_toLeBytes w n, ofLeBytes_toLeBytes hn⟩
  · rintro ⟨rfl, rfl⟩
    exact (toLeBytes_ofLeBytes bytes).symm

/-! ### Fixed widths -/

theorem eq_toLeBytes_uint32_iff {x : UInt32} {bytes : List UInt8} :
    bytes = toLeBytes 4 x.toNat ↔ bytes.length = 4 ∧ UInt32.ofNat (ofLeBytes bytes) = x := by
  refine (eq_toLeBytes_iff x.toNat_lt).trans (and_congr_right fun hl => ?_)
  have hlt : ofLeBytes bytes < 2 ^ 32 := by
    have h := ofLeBytes_lt bytes
    rwa [hl] at h
  rw [← UInt32.toNat_inj, UInt32.toNat_ofNat', Nat.mod_eq_of_lt hlt]

theorem eq_toLeBytes_uint64_iff {x : UInt64} {bytes : List UInt8} :
    bytes = toLeBytes 8 x.toNat ↔ bytes.length = 8 ∧ UInt64.ofNat (ofLeBytes bytes) = x := by
  refine (eq_toLeBytes_iff x.toNat_lt).trans (and_congr_right fun hl => ?_)
  have hlt : ofLeBytes bytes < 2 ^ 64 := by
    have h := ofLeBytes_lt bytes
    rwa [hl] at h
  rw [← UInt64.toNat_inj, UInt64.toNat_ofNat', Nat.mod_eq_of_lt hlt]

end Wakuwaku
