import Mathlib.Data.Nat.ModEq
import Mathlib.Tactic.Ring
import Mathlib.Tactic.Common

/-
  `common/uint128.h` - products and quotients of 128 bits in words of 64.

  1. **Program** - `MultiplyAndDivide64` as the two compilers have it, the generic `MultiplyHigh`, and
     `Divide128On32`.  Every operator is one of 64 bits and wraps.

  2. **Specification** - the same number computed without a bound.

  3. **The crux** - a number is `quotient * d + remainder`, so a product falls apart into four; the
     carries of the parts are what the helpers have to add.

  4. **When it goes wrong** - `moda * modb` of the portable `MultiplyAndDivide64` is a product of two
     64-bit remainders, and is not carried into a second word.
-/

namespace Suyu.Common.Uint128

/-! ## The program -/

/-- `u128` of `common_types.h`: the low word first. -/
abbrev U128 := BitVec 64 × BitVec 64

def U128.toNat (n : U128) : Nat := n.2.toNat * 2 ^ 64 + n.1.toNat

def multiplyAndDivide64 (a b d : BitVec 64) : BitVec 64 :=
  let diva := a / d
  let moda := a % d
  let divb := b / d
  let modb := b % d
  diva * b + moda * divb + moda * modb / d

/-- The same under MSVC: `_umul128` and `_udiv128`. -/
def multiplyAndDivide64Msvc (a b d : BitVec 64) : BitVec 64 :=
  let r := a.setWidth 128 * b.setWidth 128
  (r / d.setWidth 128).setWidth 64

/-- `MultiplyHigh`, the generic fallback. -/
def multiplyHigh (a b : BitVec 64) : BitVec 64 :=
  let aLo := (a.setWidth 32).setWidth 64
  let aHi := a >>> 32
  let bLo := (b.setWidth 32).setWidth 64
  let bHi := b >>> 32
  let axbHi := aHi * bHi
  let axbMid := aHi * bLo
  let bxaMid := bHi * aLo
  let axbLo := aLo * bLo
  let carryBit := ((axbMid.setWidth 32).setWidth 64 + (bxaMid.setWidth 32).setWidth 64 + axbLo >>> 32) >>> 32
  axbHi + axbMid >>> 32 + bxaMid >>> 32 + carryBit

def divide128On32 (dividend : U128) (divisor : BitVec 32) : BitVec 64 × BitVec 64 :=
  let divisor := divisor.setWidth 64
  let remainder := dividend.1 % divisor
  let accum := dividend.1 / divisor
  if dividend.2 = 0 then (accum, remainder)
  else
    let firstSegment := (dividend.2 % divisor) <<< 32
    let accum := accum + (firstSegment / divisor) <<< 32
    let secondSegment := (firstSegment % divisor) <<< 32
    let accum := accum + secondSegment / divisor
    let remainder := remainder + secondSegment % divisor
    if remainder ≥ divisor then (accum + 1, remainder - divisor) else (accum, remainder)

/-! ## MultiplyAndDivide64 -/

theorem mul_div_parts (a b : Nat) {d : Nat} (hd : 0 < d) :
    a * b / d = a / d * b + a % d * (b / d) + a % d * (b % d) / d := by
  have hsplit : a * b = a % d * (b % d) + d * (a / d * b + a % d * (b / d)) := by
    conv_lhs => rw [← Nat.div_add_mod a d]
    conv_lhs => rw [Nat.add_mul]
    conv_lhs => enter [2]; rw [← Nat.div_add_mod b d]
    ring
  rw [hsplit, Nat.add_mul_div_left _ _ hd]
  ring

theorem mod_div_eq_iff {m d : Nat} (hd : 0 < d) (hword : d ≤ 2 ^ 64) :
    m % 2 ^ 64 / d = m / d ↔ m < 2 ^ 64 := by
  constructor
  · intro h
    by_contra hge
    have hle : m % 2 ^ 64 + d ≤ m := by omega
    have hdiv := Nat.div_le_div_right (c := d) hle
    rw [Nat.add_div_right _ hd] at hdiv
    omega
  · intro h
    rw [Nat.mod_eq_of_lt h]

theorem multiplyAndDivide64_iff {a b d : BitVec 64} (hd : 0 < d.toNat)
    (hfit : a.toNat * b.toNat / d.toNat < 2 ^ 64) :
    (multiplyAndDivide64 a b d).toNat = a.toNat * b.toNat / d.toNat ↔
      a.toNat % d.toNat * (b.toNat % d.toNat) < 2 ^ 64 := by
  have hparts := mul_div_parts a.toNat b.toNat hd
  rw [hparts] at hfit ⊢
  have hwrap : a.toNat % d.toNat * (b.toNat % d.toNat) % 2 ^ 64 / d.toNat ≤
      a.toNat % d.toNat * (b.toNat % d.toNat) / d.toNat := Nat.div_le_div_right (Nat.mod_le _ _)
  rw [← mod_div_eq_iff hd d.isLt.le, multiplyAndDivide64]
  simp only [BitVec.toNat_add, BitVec.toNat_mul, BitVec.toNat_udiv, BitVec.toNat_umod]
  generalize a.toNat / d.toNat * b.toNat = p at *
  generalize a.toNat % d.toNat * (b.toNat / d.toNat) = q at *
  generalize a.toNat % d.toNat * (b.toNat % d.toNat) % 2 ^ 64 / d.toNat = r at *
  generalize a.toNat % d.toNat * (b.toNat % d.toNat) / d.toNat = s at *
  omega

theorem multiplyAndDivide64Msvc_toNat {a b d : BitVec 64}
    (hfit : a.toNat * b.toNat / d.toNat < 2 ^ 64) :
    (multiplyAndDivide64Msvc a b d).toNat = a.toNat * b.toNat / d.toNat := by
  have hprod : a.toNat * b.toNat < 2 ^ 128 := by
    calc a.toNat * b.toNat < 2 ^ 64 * 2 ^ 64 := Nat.mul_lt_mul'' a.isLt b.isLt
      _ = 2 ^ 128 := by decide
  rw [multiplyAndDivide64Msvc]
  simp only [BitVec.toNat_setWidth, BitVec.toNat_udiv, BitVec.toNat_mul]
  rw [Nat.mod_eq_of_lt (lt_trans a.isLt (by decide)), Nat.mod_eq_of_lt (lt_trans b.isLt (by decide)),
    Nat.mod_eq_of_lt (lt_trans d.isLt (by decide)), Nat.mod_eq_of_lt hprod, Nat.mod_eq_of_lt hfit]

/-! ## MultiplyHigh -/

theorem high_of_halves (hi mid mid' lo : Nat) :
    (hi * 2 ^ 64 + (mid + mid') * 2 ^ 32 + lo) / 2 ^ 64 =
      hi + mid / 2 ^ 32 + mid' / 2 ^ 32 + (mid % 2 ^ 32 + mid' % 2 ^ 32 + lo / 2 ^ 32) / 2 ^ 32 := by
  omega

theorem half_mul_le {a b : Nat} (ha : a < 2 ^ 32) (hb : b < 2 ^ 32) :
    a * b ≤ (2 ^ 32 - 1) * (2 ^ 32 - 1) :=
  Nat.mul_le_mul (by omega) (by omega)

theorem toNat_lowHalf (a : BitVec 64) : ((a.setWidth 32).setWidth 64).toNat = a.toNat % 2 ^ 32 := by
  rw [BitVec.toNat_setWidth, BitVec.toNat_setWidth]; omega

theorem toNat_highHalf (a : BitVec 64) : (a >>> 32).toNat = a.toNat / 2 ^ 32 := by
  rw [BitVec.toNat_ushiftRight, Nat.shiftRight_eq_div_pow]

theorem toNat_half_mul {a b : BitVec 64} (ha : a.toNat < 2 ^ 32) (hb : b.toNat < 2 ^ 32) :
    (a * b).toNat = a.toNat * b.toNat := by
  have h := half_mul_le ha hb
  rw [BitVec.toNat_mul]
  exact Nat.mod_eq_of_lt (lt_of_le_of_lt h (by decide))

theorem toNat_addHigh {hi mid mid' lo : BitVec 64} {n : Nat} (hn : n < 2 ^ 128)
    (h : n = hi.toNat * 2 ^ 64 + (mid.toNat + mid'.toNat) * 2 ^ 32 + lo.toNat) :
    (hi + mid >>> 32 + mid' >>> 32 + ((mid.setWidth 32).setWidth 64 + (mid'.setWidth 32).setWidth 64 +
      lo >>> 32) >>> 32).toNat = n / 2 ^ 64 := by
  have hhigh := high_of_halves hi.toNat mid.toNat mid'.toNat lo.toNat
  rw [← h] at hhigh
  have hcarry : ((mid.setWidth 32).setWidth 64 + (mid'.setWidth 32).setWidth 64 + lo >>> 32).toNat =
      mid.toNat % 2 ^ 32 + mid'.toNat % 2 ^ 32 + lo.toNat / 2 ^ 32 := by
    have := lo.isLt
    rw [BitVec.toNat_add, BitVec.toNat_add, toNat_lowHalf, toNat_lowHalf, toNat_highHalf]
    omega
  rw [BitVec.toNat_add, BitVec.toNat_add, BitVec.toNat_add, toNat_highHalf mid, toNat_highHalf mid',
    toNat_highHalf, hcarry]
  have hlt : n / 2 ^ 64 < 2 ^ 64 := Nat.div_lt_of_lt_mul hn
  rw [hhigh] at hlt ⊢
  omega

theorem multiplyHigh_toNat (a b : BitVec 64) :
    (multiplyHigh a b).toNat = a.toNat * b.toNat / 2 ^ 64 := by
  have hprod : a.toNat * b.toNat < 2 ^ 128 :=
    calc a.toNat * b.toNat < 2 ^ 64 * 2 ^ 64 := Nat.mul_lt_mul'' a.isLt b.isLt
      _ = 2 ^ 128 := by decide
  have hlow (n : BitVec 64) : ((n.setWidth 32).setWidth 64).toNat < 2 ^ 32 := by
    rw [toNat_lowHalf]; exact Nat.mod_lt _ (by decide)
  have hhigh (n : BitVec 64) : (n >>> 32).toNat < 2 ^ 32 := by
    have := n.isLt
    rw [toNat_highHalf]; omega
  refine toNat_addHigh hprod ?_
  rw [toNat_half_mul (hhigh a) (hhigh b), toNat_half_mul (hhigh a) (hlow b), toNat_half_mul (hhigh b) (hlow a),
    toNat_half_mul (hlow a) (hlow b), toNat_lowHalf, toNat_lowHalf, toNat_highHalf, toNat_highHalf]
  conv_lhs => rw [← Nat.div_add_mod a.toNat (2 ^ 32), ← Nat.div_add_mod b.toNat (2 ^ 32)]
  ring

/-! ## Divide128On32 -/

theorem toNat_shiftLeft_32 {n : BitVec 64} (h : n.toNat < 2 ^ 32) : (n <<< 32).toNat = n.toNat * 2 ^ 32 := by
  rw [BitVec.toNat_shiftLeft, Nat.shiftLeft_eq]; omega

theorem div_mod_halves (hi lo d B : Nat) :
    hi * (B * B) + lo = hi % d * B % d * B % d + lo % d +
      d * (hi / d * (B * B) + (hi % d * B / d * B + hi % d * B % d * B / d + lo / d)) := by
  have h₁ := Nat.div_add_mod hi d
  have h₂ := Nat.div_add_mod (hi % d * B) d
  have h₃ := Nat.div_add_mod (hi % d * B % d * B) d
  have h₄ := Nat.div_add_mod lo d
  generalize hi % d * B % d * B % d = r₃ at *
  generalize hi % d * B % d * B / d = q₃ at *
  generalize hi % d * B % d = r₂ at *
  generalize hi % d * B / d = q₂ at *
  calc hi * (B * B) + lo = (d * (hi / d) + hi % d) * (B * B) + (d * (lo / d) + lo % d) := by rw [h₁, h₄]
    _ = d * (hi / d * (B * B) + lo / d) + lo % d + hi % d * B * B := by ring
    _ = d * (hi / d * (B * B) + lo / d + q₂ * B) + lo % d + r₂ * B := by rw [← h₂]; ring
    _ = r₃ + lo % d + d * (hi / d * (B * B) + (q₂ * B + q₃ + lo / d)) := by rw [← h₃]; ring

theorem segments_div_mod {n d q q' r : Nat} (hd : 0 < d) (hr : r < 2 * d) (h : n = r + d * (q' * 2 ^ 64 + q)) :
    (if d ≤ r then q + 1 else q) % 2 ^ 64 = n / d % 2 ^ 64 ∧ (if d ≤ r then r - d else r) = n % d := by
  subst h
  rw [Nat.add_mul_div_left _ _ hd, Nat.add_mul_mod_self_left]
  split
  · have hdiv : r / d = 1 := Nat.div_eq_of_lt_le (by omega) (by omega)
    have hmod : r % d = r - d := by
      rw [Nat.mod_eq_sub_mod (by omega), Nat.mod_eq_of_lt (by omega)]
    omega
  · have hdiv : r / d = 0 := Nat.div_eq_of_lt (by omega)
    have hmod : r % d = r := Nat.mod_eq_of_lt (by omega)
    omega

theorem divide128On32_toNat (dividend : U128) {divisor : BitVec 32} (hd : 0 < divisor.toNat) :
    (divide128On32 dividend divisor).1.toNat = dividend.toNat / divisor.toNat % 2 ^ 64 ∧
    (divide128On32 dividend divisor).2.toNat = dividend.toNat % divisor.toNat := by
  obtain ⟨lo, hi⟩ := dividend
  have hdlt := divisor.isLt
  have hwide : (divisor.setWidth 64).toNat = divisor.toNat := by
    rw [BitVec.toNat_setWidth]; exact Nat.mod_eq_of_lt (by omega)
  have hvalue : U128.toNat (lo, hi) = hi.toNat * (2 ^ 32 * 2 ^ 32) + lo.toNat := rfl
  rw [hvalue, divide128On32]
  dsimp only
  rw [← hwide] at hd hdlt ⊢
  generalize divisor.setWidth 64 = d at hd hdlt ⊢
  split
  · next hzero =>
    have hhi : hi.toNat = 0 := congrArg BitVec.toNat hzero
    rw [hhi, Nat.zero_mul, Nat.zero_add, BitVec.toNat_udiv, BitVec.toNat_umod]
    exact ⟨(Nat.mod_eq_of_lt (lt_of_le_of_lt (Nat.div_le_self _ _) lo.isLt)).symm, rfl⟩
  · have hhi := Nat.mod_lt hi.toNat hd
    have hfirst : ((hi % d) <<< 32).toNat = hi.toNat % d.toNat * 2 ^ 32 := by
      rw [toNat_shiftLeft_32] <;> rw [BitVec.toNat_umod]
      omega
    have hrest := Nat.mod_lt (hi.toNat % d.toNat * 2 ^ 32) hd
    have hsecond : (((hi % d) <<< 32 % d) <<< 32).toNat =
        hi.toNat % d.toNat * 2 ^ 32 % d.toNat * 2 ^ 32 := by
      rw [toNat_shiftLeft_32] <;> rw [BitVec.toNat_umod, hfirst]
      omega
    have hsegment : hi.toNat % d.toNat * 2 ^ 32 / d.toNat < 2 ^ 32 :=
      Nat.div_lt_of_lt_mul (Nat.mul_lt_mul_of_pos_right hhi (by decide))
    have haccum : (lo / d + ((hi % d) <<< 32 / d) <<< 32 + ((hi % d) <<< 32 % d) <<< 32 / d).toNat =
        (hi.toNat % d.toNat * 2 ^ 32 / d.toNat * 2 ^ 32 +
          hi.toNat % d.toNat * 2 ^ 32 % d.toNat * 2 ^ 32 / d.toNat + lo.toNat / d.toNat) % 2 ^ 64 := by
      have hquotient : ((hi % d) <<< 32 / d).toNat = hi.toNat % d.toNat * 2 ^ 32 / d.toNat := by
        rw [BitVec.toNat_udiv, hfirst]
      rw [BitVec.toNat_add, BitVec.toNat_add, toNat_shiftLeft_32 (by rwa [hquotient]), hquotient,
        BitVec.toNat_udiv, BitVec.toNat_udiv, hsecond, Nat.mod_add_mod,
        Nat.add_assoc, Nat.add_comm]
    have hlast := Nat.mod_lt (hi.toNat % d.toNat * 2 ^ 32 % d.toNat * 2 ^ 32) hd
    have hlow := Nat.mod_lt lo.toNat hd
    have hremainder : (lo % d + ((hi % d) <<< 32 % d) <<< 32 % d).toNat =
        hi.toNat % d.toNat * 2 ^ 32 % d.toNat * 2 ^ 32 % d.toNat + lo.toNat % d.toNat := by
      rw [BitVec.toNat_add, BitVec.toNat_umod, BitVec.toNat_umod, hsecond, Nat.add_comm]
      exact Nat.mod_eq_of_lt (by omega)
    obtain ⟨hq, hr⟩ := segments_div_mod hd (by omega) (div_mod_halves hi.toNat lo.toNat d.toNat (2 ^ 32))
    rw [← hq, ← hr, ← hremainder]
    have hreach : lo % d + ((hi % d) <<< 32 % d) <<< 32 % d ≥ d ↔
        d.toNat ≤ (lo % d + ((hi % d) <<< 32 % d) <<< 32 % d).toNat := BitVec.le_def
    split
    · next hge =>
      rw [if_pos (hreach.1 hge), if_pos (hreach.1 hge), BitVec.toNat_add, haccum, BitVec.toNat_sub_of_le hge]
      exact ⟨by rw [Nat.mod_add_mod]; rfl, rfl⟩
    · next hge =>
      rw [if_neg (fun h => hge (hreach.2 h)), if_neg (fun h => hge (hreach.2 h))]
      exact ⟨haccum, rfl⟩

/-! ## The helpers -/

/-- **The helpers are exact**, the portable `MultiplyAndDivide64` where the product of its remainders
    fits a word. -/
theorem uint128_helpers_exact (a b d : BitVec 64) (dividend : U128) (divisor : BitVec 32) :
    (0 < d.toNat → a.toNat * b.toNat / d.toNat < 2 ^ 64 →
      (multiplyAndDivide64Msvc a b d).toNat = a.toNat * b.toNat / d.toNat ∧
      ((multiplyAndDivide64 a b d).toNat = a.toNat * b.toNat / d.toNat ↔
        a.toNat % d.toNat * (b.toNat % d.toNat) < 2 ^ 64)) ∧
    (multiplyHigh a b).toNat = a.toNat * b.toNat / 2 ^ 64 ∧
    (0 < divisor.toNat →
      (divide128On32 dividend divisor).1.toNat = dividend.toNat / divisor.toNat % 2 ^ 64 ∧
      (divide128On32 dividend divisor).2.toNat = dividend.toNat % divisor.toNat) :=
  ⟨fun hd hfit => ⟨multiplyAndDivide64Msvc_toNat hfit, multiplyAndDivide64_iff hd hfit⟩,
    multiplyHigh_toNat a b, fun hd => divide128On32_toNat dividend hd⟩

/-- A tick count in nanoseconds, over a frequency of 19.2 MHz, and a dividend of two words. -/
theorem uint128_helpers_exact_ticks :
    multiplyAndDivide64 0x10000000000#64 1000000000#64 19200000#64 =
      (0x10000000000 * 1000000000 / 19200000 : Nat) ∧
    (divide128On32 (5#64, 3#64) 1000#32).1.toNat = (3 * 2 ^ 64 + 5) / 1000 % 2 ^ 64 := by
  obtain ⟨hmultiply, -, hdivide⟩ := uint128_helpers_exact 0x10000000000#64 1000000000#64 19200000#64
    (5#64, 3#64) 1000#32
  refine ⟨?_, (hdivide (by decide)).1⟩
  apply BitVec.eq_of_toNat_eq
  rw [(hmultiply (by decide) (by decide)).2.mpr (by decide)]
  rfl

/-- The square of 2^63, divided by 2^64 - 1, comes out as zero. -/
theorem not_multiplyAndDivide64_exact : ¬ ∀ a b d : BitVec 64, 0 < d.toNat →
    a.toNat * b.toNat / d.toNat < 2 ^ 64 →
    (multiplyAndDivide64 a b d).toNat = a.toNat * b.toNat / d.toNat := by
  intro h
  exact absurd (h (1#64 <<< 63) (1#64 <<< 63) (BitVec.allOnes 64) (by decide) (by decide)) (by decide)

end Suyu.Common.Uint128
