import Mathlib.Tactic.Positivity
import Mathlib.Tactic.Ring

/-! # Fixed-width integer arithmetic

Unsigned `w`-bit values are naturals below `2 ^ w` and every operation wraps
modulo `2 ^ w`; signed `w`-bit values are their two's complement reading. The
conversions between the two are the bit-pattern casts of languages such as Go
(`int64(x)` for an unsigned `x`, `uint64(z)` for a signed `z`), and signed
arithmetic is the exact result cast back.
-/

namespace Wrap

variable (w : ℕ)

/-- Unsigned addition. -/
def add (a b : ℕ) : ℕ := (a + b) % 2 ^ w

/-- Unsigned subtraction, which wraps below zero. -/
def sub (a b : ℕ) : ℕ := (a + (2 ^ w - b % 2 ^ w)) % 2 ^ w

/-- Unsigned multiplication. -/
def mul (a b : ℕ) : ℕ := a * b % 2 ^ w

/-- The two's complement reading of a bit pattern. -/
def signed (x : ℕ) : ℤ :=
  if x % 2 ^ w < 2 ^ (w - 1) then ((x % 2 ^ w : ℕ) : ℤ) else ((x % 2 ^ w : ℕ) : ℤ) - 2 ^ w

/-- The bit pattern of an integer. -/
def unsigned (z : ℤ) : ℕ := (z % 2 ^ w).toNat

/-- A signed result wrapped into `w` bits. -/
def wrapSigned (z : ℤ) : ℤ := signed w (unsigned w z)

variable {w}

theorem add_of_lt {a b : ℕ} (h : a + b < 2 ^ w) : add w a b = a + b :=
  Nat.mod_eq_of_lt h

theorem sub_of_le {a b : ℕ} (ha : a < 2 ^ w) (h : b ≤ a) : sub w a b = a - b := by
  have hb : b % 2 ^ w = b := Nat.mod_eq_of_lt (by omega)
  unfold sub
  rw [hb, show a + (2 ^ w - b) = a - b + 2 ^ w by omega, Nat.add_mod_right,
    Nat.mod_eq_of_lt (by omega)]

theorem half_le : 2 ^ (w - 1) ≤ 2 ^ w :=
  Nat.pow_le_pow_right (by norm_num) (Nat.sub_le w 1)

theorem signed_of_lt {x : ℕ} (h : x < 2 ^ (w - 1)) : signed w x = x := by
  have hx : x % 2 ^ w = x := Nat.mod_eq_of_lt (Nat.lt_of_lt_of_le h half_le)
  simp [signed, hx, h]

theorem unsigned_of_nonneg {z : ℤ} (h0 : 0 ≤ z) (h : z < 2 ^ w) : unsigned w z = z.toNat := by
  rw [unsigned, Int.emod_eq_of_lt h0 h]

theorem cast_two_pow (n : ℕ) : ((2 ^ n : ℕ) : ℤ) = 2 ^ n := by
  push_cast
  rfl

theorem unsigned_lt (z : ℤ) : unsigned w z < 2 ^ w := by
  have hpos : (0 : ℤ) < 2 ^ w := by positivity
  have h0 := Int.emod_nonneg z hpos.ne'
  have hlt := Int.emod_lt_of_pos z hpos
  have hc := cast_two_pow w
  unfold unsigned
  omega

/-- Casting a signed value in range to its bit pattern and back is the identity. -/
theorem wrapSigned_of_range (hw : 0 < w) {z : ℤ} (hlo : -2 ^ (w - 1) ≤ z)
    (hhi : z < 2 ^ (w - 1)) : wrapSigned w z = z := by
  have hsplit : (2 : ℤ) ^ w = 2 ^ (w - 1) + 2 ^ (w - 1) := by
    rw [← two_mul, ← pow_succ', Nat.sub_add_cancel hw]
  have hhalf : (0 : ℤ) < 2 ^ (w - 1) := by positivity
  have hc := cast_two_pow w
  have hc' := cast_two_pow (w - 1)
  rcases le_or_gt 0 z with h0 | h0
  · have hnat : z.toNat < 2 ^ (w - 1) := by omega
    rw [wrapSigned, unsigned_of_nonneg h0 (by omega), signed_of_lt hnat]
    omega
  · have hmod : z % 2 ^ w = z + 2 ^ w := by
      rw [← Int.add_emod_right, Int.emod_eq_of_lt (by omega) (by omega)]
    have hu : ((unsigned w z : ℕ) : ℤ) = z + 2 ^ w := by
      rw [unsigned, hmod]
      omega
    have hlt := unsigned_lt (w := w) z
    have hnot : ¬ unsigned w z % 2 ^ w < 2 ^ (w - 1) := by
      rw [Nat.mod_eq_of_lt hlt]
      omega
    rw [wrapSigned, signed, if_neg hnot, Nat.mod_eq_of_lt hlt, hu]
    ring

end Wrap
