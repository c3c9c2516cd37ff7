import Velkavo.WordArith.Halves

namespace Velkavo.Epee

open WordArith

def hiDword (val : UInt64) : UInt64 := val >>> 32

def loDword (val : UInt64) : UInt64 := val &&& 0xFFFFFFFF

def mul128 (multiplier multiplicand : UInt64) : Option (UInt64 × UInt64) :=
  let a := hiDword multiplier
  let b := loDword multiplier
  let c := hiDword multiplicand
  let d := loDword multiplicand
  let ac := a * c
  let ad := a * d
  let bc := b * c
  let bd := b * d
  let adbc := ad + bc
  let adbcCarry : UInt64 := if adbc < ad then 1 else 0
  let productLo := bd + (adbc <<< 32)
  let productLoCarry : UInt64 := if productLo < bd then 1 else 0
  let productHi := ac + (adbc >>> 32) + (adbcCarry <<< 32) + productLoCarry
  if ac ≤ productHi then some (productLo, productHi) else none

structure QuotRem where
  quotientHi : UInt64
  quotientLo : UInt64
  remainderHi : UInt64
  remainderLo : UInt64

def div128_64 (dividendHi dividendLo divisor : UInt64) : Option QuotRem :=
  let dividend : BitVec 128 := dividendHi.toBitVec.setWidth 128 <<< 64 ||| dividendLo.toBitVec.setWidth 128
  let divisor : BitVec 128 := divisor.toBitVec.setWidth 128
  if divisor = 0 then none
  else
    let q := dividend / divisor
    let r := dividend % divisor
    some ⟨.ofBitVec ((q >>> 64).setWidth 64), .ofBitVec (q.setWidth 64), .ofBitVec ((r >>> 64).setWidth 64),
      .ofBitVec (r.setWidth 64)⟩

theorem mul128_eq (x y : UInt64) :
    mul128 x y = some (UInt64.ofNat (x.toNat * y.toNat), UInt64.ofNat (x.toNat * y.toNat / 2 ^ 64)) := by
  obtain ⟨hsum, hac, had, hbc, hbd⟩ : Partials x y (hiDword x * hiDword y) (hiDword x * loDword y) (loDword x * hiDword y)
    (loDword x * loDword y) := partials x y
  rw [mul128]
  generalize hiDword x * hiDword y = ac, hiDword x * loDword y = ad, loDword x * hiDword y = bc,
    loDword x * loDword y = bd at *
  have hproduct : x.toNat * y.toNat < 2 ^ 64 * 2 ^ 64 := Nat.mul_lt_mul'' x.toNat_lt y.toNat_lt
  generalize x.toNat * y.toNat = product at *
  have hmiddle := toNat_add_carry ad bc
  have hlow := toNat_add_carry bd ((ad + bc) <<< 32)
  have hraised := toNat_raised (ad + bc)
  have hhigh := toNat_high (ad + bc)
  have hcarry : ((if ad + bc < ad then (1 : UInt64) else 0) <<< 32).toNat = (if ad + bc < ad then 1 else 0) * 2 ^ 32 := by
    rw [toNat_raised, toNat_carry]
    split_ifs <;> rfl
  have hcarry' := toNat_carry (bd + (ad + bc) <<< 32 < bd)
  generalize (if ad + bc < ad then 1 else 0 : ℕ) = c at hmiddle hcarry
  generalize (if bd + (ad + bc) <<< 32 < bd then 1 else 0 : ℕ) = c' at hlow hcarry'
  -- the high word is the sum of four terms, none of which leaves 64 bits
  have h₁ : (ac + (ad + bc) >>> 32).toNat = ac.toNat + ((ad + bc) >>> 32).toNat := toNat_add_of_lt (by omega)
  have h₂ := toNat_add_of_lt (a := ac + (ad + bc) >>> 32) (b := (if ad + bc < ad then (1 : UInt64) else 0) <<< 32) (by omega)
  have h₃ := toNat_add_of_lt (a := ac + (ad + bc) >>> 32 + (if ad + bc < ad then (1 : UInt64) else 0) <<< 32)
    (b := if bd + (ad + bc) <<< 32 < bd then 1 else 0) (by omega)
  have hlt := (bd + (ad + bc) <<< 32).toNat_lt
  rw [if_pos (UInt64.le_iff_toNat_le.mpr (by omega)), Option.some_inj, Prod.mk.injEq]
  refine ⟨(ofNat_eq_of_toNat ?_).symm, (ofNat_eq_of_toNat ?_).symm⟩
  · omega
  · omega

theorem div128_64_eq (hi lo : UInt64) {divisor : UInt64} (h : divisor ≠ 0) :
    div128_64 hi lo divisor = some ⟨.ofNat ((hi.toNat * 2 ^ 64 + lo.toNat) / divisor.toNat / 2 ^ 64),
      .ofNat ((hi.toNat * 2 ^ 64 + lo.toNat) / divisor.toNat),
      .ofNat ((hi.toNat * 2 ^ 64 + lo.toNat) % divisor.toNat / 2 ^ 64),
      .ofNat ((hi.toNat * 2 ^ 64 + lo.toNat) % divisor.toNat)⟩ := by
  have hwidth : ∀ v : UInt64, (v.toBitVec.setWidth 128).toNat = v.toNat :=
    fun v => BitVec.toNat_setWidth_of_le (by decide)
  have hdividend := toNat_shiftLeft_or (v := hi.toBitVec.setWidth 128) (by
    have hlt := hi.toNat_lt
    rw [hwidth]
    omega) lo
  rw [hwidth] at hdividend
  have hne : divisor.toBitVec.setWidth 128 ≠ 0 := by
    intro hzero
    rw [← BitVec.toNat_inj, hwidth] at hzero
    exact h (UInt64.toNat_inj.mp hzero)
  have hlow : ∀ v : BitVec 128, UInt64.ofBitVec (v.setWidth 64) = .ofNat v.toNat := by
    intro v
    refine (ofNat_eq_of_toNat ?_).symm
    rw [UInt64.toNat_ofBitVec, BitVec.toNat_setWidth]
  have hhigh : ∀ v : BitVec 128, UInt64.ofBitVec ((v >>> 64).setWidth 64) = .ofNat (v.toNat / 2 ^ 64) := by
    intro v
    rw [hlow, BitVec.toNat_ushiftRight, Nat.shiftRight_eq_div_pow]
  rw [div128_64]
  dsimp only
  rw [if_neg hne, hhigh, hhigh, hlow, hlow, BitVec.toNat_udiv, BitVec.toNat_umod, hwidth, hdividend]

end Velkavo.Epee
