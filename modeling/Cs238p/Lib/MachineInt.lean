import Mathlib.Algebra.Order.Ring.Int
import Mathlib.Data.Int.Notation

set_option relaxedAutoImplicit false
set_option autoImplicit false

/-!
# Integers of a machine

Signed integers of `w` bits in two's complement. An arithmetic operation whose result does not fit
has no result, and the conversion of an unsigned number keeps its lowest bits. Unsigned integers are
numbers modulo a power of two, and small differences of them are exact.

## Main definitions

* `Fits` — the integers of `w` bits.
* `checked`, `add`, `sub`, `mul`, `div`, `mod` — the operations; division rounds towards zero.
* `ofUnsigned` — the conversion of an unsigned number.

## Main results

* `checked_eq_self_iff`, `ofUnsigned_eq_iff` — an operation or a conversion is exact if and only if
  its result fits.
* `div_natCast`, `mod_natCast` — division of numbers that are not negative.
* `toNat_sub_ofNat` — the difference of two unsigned integers.
-/

namespace Cs238p.MachineInt

/-- The signed integers of `w` bits. -/
def Fits (w : ℕ) (n : ℤ) : Prop := -2 ^ (w - 1) ≤ n ∧ n < 2 ^ (w - 1)

instance (w : ℕ) : DecidablePred (Fits w) := fun _ => inferInstanceAs (Decidable (_ ∧ _))

/-- The result of an operation, `none` on overflow. -/
def checked (w : ℕ) (n : ℤ) : Option ℤ := if Fits w n then some n else none

def add (w : ℕ) (a b : ℤ) : Option ℤ := checked w (a + b)

def sub (w : ℕ) (a b : ℤ) : Option ℤ := checked w (a - b)

def mul (w : ℕ) (a b : ℤ) : Option ℤ := checked w (a * b)

/-- Division rounds towards zero. -/
def div (w : ℕ) (a b : ℤ) : Option ℤ := if b = 0 then none else checked w (a.tdiv b)

/-- The remainder has the sign of the dividend, and is defined if the quotient is. -/
def mod (w : ℕ) (a b : ℤ) : Option ℤ := (div w a b).map fun _ => a.tmod b

/-- The conversion of an unsigned number to `w` bits. -/
def ofUnsigned (w n : ℕ) : ℤ := (n : ℤ).bmod (2 ^ w)

variable {w n m : ℕ} {a b : ℤ}

lemma checked_eq_self_iff : checked w a = some a ↔ Fits w a := by
  unfold checked
  split <;> simp_all

lemma fits_natCast : Fits w n ↔ n < 2 ^ (w - 1) := by
  have hpow : ((2 ^ (w - 1) : ℕ) : ℤ) = 2 ^ (w - 1) := Nat.cast_pow 2 (w - 1)
  unfold Fits
  omega

/-- A number below one that fits. -/
lemma Fits.of_le (h : Fits w n) (hle : m ≤ n) : Fits w m :=
  fits_natCast.mpr (hle.trans_lt (fits_natCast.mp h))

/-- **A conversion is exact** if and only if its result fits. -/
theorem ofUnsigned_eq_iff (hw : 0 < w) : ofUnsigned w n = n ↔ Fits w n := by
  have hpow : 2 ^ w = 2 * 2 ^ (w - 1) := by
    rw [← Nat.pow_succ', Nat.succ_eq_add_one, Nat.sub_add_cancel hw]
  have hpos : 0 < 2 ^ w := Nat.two_pow_pos w
  rw [fits_natCast]
  unfold ofUnsigned
  constructor
  · intro heq
    have hlt := Int.bmod_lt (x := (n : ℤ)) hpos
    omega
  · intro hlt
    apply Int.bmod_eq_of_le <;> omega

/-- Division of numbers that are not negative. -/
lemma div_natCast (hm : 0 < m) (h : Fits w n) : div w n m = some ((n / m : ℕ) : ℤ) := by
  have hquot : (n : ℤ).tdiv m = (n / m : ℕ) := (Int.ofNat_tdiv n m).symm
  rw [div, if_neg (by omega), hquot]
  exact checked_eq_self_iff.mpr (h.of_le (Nat.div_le_self n m))

/-- The remainder of numbers that are not negative. -/
lemma mod_natCast (hm : 0 < m) (h : Fits w n) : mod w n m = some ((n % m : ℕ) : ℤ) := by
  rw [mod, div_natCast hm h, Option.map_some, ← Int.ofNat_tmod]

/-- **A small difference is exact**, whether or not the numbers themselves fit. -/
lemma toNat_sub_ofNat (hle : n ≤ m) (hlt : m < n + 2 ^ 32) :
    (UInt32.ofNat m - UInt32.ofNat n).toNat = m - n := by
  have hm : (UInt32.ofNat m).toNat = m % 2 ^ 32 := UInt32.toNat_ofNat'
  have hn : (UInt32.ofNat n).toNat = n % 2 ^ 32 := UInt32.toNat_ofNat'
  rw [UInt32.toNat_sub, hm, hn]
  omega

end Cs238p.MachineInt
