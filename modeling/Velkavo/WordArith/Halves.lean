import Mathlib.Data.Nat.Bitwise
import Mathlib.Data.UInt
import Mathlib.Tactic.Linarith
import Mathlib.Tactic.Ring

/-! Words of 64 bits as numbers: carries, halves, and sums of products of halves. -/

namespace WordArith

theorem add_lt_left_iff (a b : UInt64) : a + b < a ↔ 2 ^ 64 ≤ a.toNat + b.toNat := by
  have ha := a.toNat_lt
  have hb := b.toNat_lt
  rw [UInt64.lt_iff_toNat_lt, UInt64.toNat_add]
  omega

theorem toNat_add_carry (a b : UInt64) :
    (a + b).toNat + 2 ^ 64 * (if a + b < a then 1 else 0) = a.toNat + b.toNat := by
  have ha := a.toNat_lt
  have hb := b.toNat_lt
  by_cases h : a + b < a
  · rw [if_pos h, UInt64.toNat_add]
    rw [add_lt_left_iff] at h
    omega
  · rw [if_neg h, UInt64.toNat_add]
    rw [add_lt_left_iff] at h
    omega

theorem toNat_add_of_lt {a b : UInt64} (h : a.toNat + b.toNat < 2 ^ 64) : (a + b).toNat = a.toNat + b.toNat := by
  rw [UInt64.toNat_add, Nat.mod_eq_of_lt h]

theorem toNat_mul_of_lt {a b : UInt64} (h : a.toNat * b.toNat < 2 ^ 64) : (a * b).toNat = a.toNat * b.toNat := by
  rw [UInt64.toNat_mul, Nat.mod_eq_of_lt h]

theorem toNat_high (v : UInt64) : (v >>> 32).toNat = v.toNat / 2 ^ 32 := by
  rw [UInt64.toNat_shiftRight, Nat.shiftRight_eq_div_pow]
  rfl

theorem toNat_low (v : UInt64) : (v &&& 0xFFFFFFFF).toNat = v.toNat % 2 ^ 32 := by
  rw [UInt64.toNat_and]
  exact Nat.and_two_pow_sub_one_eq_mod v.toNat 32

theorem toNat_raised (v : UInt64) : (v <<< 32).toNat = v.toNat % 2 ^ 32 * 2 ^ 32 := by
  rw [UInt64.toNat_shiftLeft, Nat.shiftLeft_eq, ← Nat.mul_mod_mul_right]
  rfl

theorem toNat_or_raised {low : UInt64} (h : low.toNat < 2 ^ 32) (v : UInt64) :
    (v <<< 32 ||| low).toNat = v.toNat % 2 ^ 32 * 2 ^ 32 + low.toNat := by
  rw [UInt64.toNat_or, toNat_raised, Nat.mul_comm, Nat.two_pow_add_eq_or_of_lt h]

theorem toNat_carry (p : Prop) [Decidable p] : (if p then (1 : UInt64) else 0).toNat = if p then 1 else 0 := by
  split_ifs <;> rfl

theorem ofNat_eq_of_toNat {v : UInt64} {n : ℕ} (h : v.toNat = n % 2 ^ 64) : UInt64.ofNat n = v := by
  rw [← UInt64.toNat_inj, UInt64.toNat_ofNat', h]

theorem toNat_two_words {n : ℕ} (h : n < 2 ^ 64 * 2 ^ 64) :
    (UInt64.ofNat (n / 2 ^ 64)).toNat * 2 ^ 64 + (UInt64.ofNat n).toNat = n := by
  have hhigh : (UInt64.ofNat (n / 2 ^ 64)).toNat = n / 2 ^ 64 := UInt64.toNat_ofNat_of_lt' (Nat.div_lt_of_lt_mul h)
  rw [hhigh, UInt64.toNat_ofNat', Nat.mul_comm]
  exact Nat.div_add_mod n (2 ^ 64)

theorem toNat_shiftLeft_or {n : ℕ} {v : BitVec n} (hv : v.toNat * 2 ^ 64 + 2 ^ 64 ≤ 2 ^ n) (w : UInt64) :
    (v <<< 64 ||| w.toBitVec.setWidth n).toNat = v.toNat * 2 ^ 64 + w.toNat := by
  have hw := w.toNat_lt
  rw [BitVec.toNat_or, BitVec.toNat_shiftLeft, BitVec.toNat_setWidth, UInt64.toNat_toBitVec, Nat.shiftLeft_eq,
    Nat.mod_eq_of_lt (by omega), Nat.mod_eq_of_lt (by omega), Nat.mul_comm, Nat.two_pow_add_eq_or_of_lt hw]

structure Partials (x y ac ad bc bd : UInt64) : Prop where
  sum : x.toNat * y.toNat = ac.toNat * 2 ^ 64 + (ad.toNat + bc.toNat) * 2 ^ 32 + bd.toNat
  ac_le : ac.toNat ≤ (2 ^ 32 - 1) * (2 ^ 32 - 1)
  ad_le : ad.toNat ≤ (2 ^ 32 - 1) * (2 ^ 32 - 1)
  bc_le : bc.toNat ≤ (2 ^ 32 - 1) * (2 ^ 32 - 1)
  bd_le : bd.toNat ≤ (2 ^ 32 - 1) * (2 ^ 32 - 1)

theorem partials (x y : UInt64) : Partials x y ((x >>> 32) * (y >>> 32)) ((x >>> 32) * (y &&& (0xFFFFFFFF : UInt64)))
    ((x &&& (0xFFFFFFFF : UInt64)) * (y >>> 32)) ((x &&& (0xFFFFFFFF : UInt64)) * (y &&& (0xFFFFFFFF : UInt64))) := by
  have hhigh : ∀ v : UInt64, (v >>> 32).toNat < 2 ^ 32 := by
    intro v
    have hv := v.toNat_lt
    rw [toNat_high]
    omega
  have hlow : ∀ v : UInt64, (v &&& 0xFFFFFFFF).toNat < 2 ^ 32 := by
    intro v
    rw [toNat_low]
    exact Nat.mod_lt _ (by decide)
  have hmul : ∀ {a b : UInt64}, a.toNat < 2 ^ 32 → b.toNat < 2 ^ 32 →
      (a * b).toNat = a.toNat * b.toNat ∧ (a * b).toNat ≤ (2 ^ 32 - 1) * (2 ^ 32 - 1) := by
    intro a b ha hb
    have hle := Nat.mul_le_mul (Nat.le_sub_one_of_lt ha) (Nat.le_sub_one_of_lt hb)
    have heq := toNat_mul_of_lt (hle.trans_lt (by decide))
    exact ⟨heq, heq ▸ hle⟩
  obtain ⟨hac, hac'⟩ := hmul (hhigh x) (hhigh y)
  obtain ⟨had, had'⟩ := hmul (hhigh x) (hlow y)
  obtain ⟨hbc, hbc'⟩ := hmul (hlow x) (hhigh y)
  obtain ⟨hbd, hbd'⟩ := hmul (hlow x) (hlow y)
  refine ⟨?_, hac', had', hbc', hbd'⟩
  rw [hac, had, hbc, hbd, toNat_high, toNat_high, toNat_low, toNat_low]
  conv_lhs => rw [← Nat.div_add_mod x.toNat (2 ^ 32), ← Nat.div_add_mod y.toNat (2 ^ 32)]
  ring

end WordArith
