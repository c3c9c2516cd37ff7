import Velkavo.ByteCodec.Words
import Velkavo.Core.Blockchain
import Velkavo.Epee.IntUtil

namespace Velkavo.Core

open Cryptonote ByteCodec Epee WordArith

inductive Target
  | x86_64
  | other

def mulPortable (a b : UInt64) : UInt64 × UInt64 :=
  let aLow := a &&& 0xFFFFFFFF
  let aHigh := a >>> 32
  let bLow := b &&& 0xFFFFFFFF
  let bHigh := b >>> 32
  let res := aLow * bLow
  let lowRes1 := res &&& 0xFFFFFFFF
  let carry := res >>> 32
  let res := aHigh * bLow + carry
  let highResHigh1 := res >>> 32
  let highResLow1 := res &&& 0xFFFFFFFF
  let res := aLow * bHigh
  let lowRes2 := res &&& 0xFFFFFFFF
  let carry := res >>> 32
  let res := aHigh * bHigh + carry
  let highResHigh2 := res >>> 32
  let highResLow2 := res &&& 0xFFFFFFFF
  let r := highResLow1 + lowRes2
  let carry := r >>> 32
  let low := (r <<< 32) ||| lowRes1
  let r := highResHigh1 + highResLow2 + carry
  let d3 := r &&& 0xFFFFFFFF
  let carry := r >>> 32
  let r := highResHigh2 + carry
  (low, d3 ||| (r <<< 32))

def mul (target : Target) (a b : UInt64) : Option (UInt64 × UInt64) :=
  match target with
  | .x86_64 => mul128 a b
  | .other => some (mulPortable a b)

def cadd (a b : UInt64) : Bool := a + b < a

def cadc (a b : UInt64) (c : Bool) : Bool := a + b < a || (c && a + b == -1)

def checkHash64 (target : Target) (hash : Hash) (difficulty : UInt64) : Option Bool := do
  let top ← mul target (word hash.bytes 3) difficulty
  if top.2 ≠ 0 then return false
  let product0 ← mul target (word hash.bytes 0) difficulty
  let product1 ← mul target (word hash.bytes 1) difficulty
  let carry := cadd product0.2 product1.1
  let product2 ← mul target (word hash.bytes 2) difficulty
  let carry := cadc product1.2 product2.1 carry
  let carry := cadc product2.2 top.1 carry
  return !carry

def max64bit : Difficulty := (BitVec.allOnes 64).setWidth 128

def max256bit : BitVec 512 := (BitVec.allOnes 256).setWidth 512

def checkHash128 (hash : Hash) (difficulty : Difficulty) : Bool :=
  let hashVal := (List.range 4).foldl
    (fun (hashVal : BitVec 512) i => (hashVal <<< 64) ||| (word hash.bytes (3 - i)).toBitVec.setWidth 512) (0 : BitVec 512)
  hashVal * difficulty.setWidth 512 ≤ max256bit

/-- The full check is only made for difficulties of more than 64 bits; nothing is returned where an assertion fails. -/
def checkHash (target : Target) (hash : Hash) (difficulty : Difficulty) : Option Bool :=
  if difficulty ≤ max64bit then checkHash64 target hash (.ofBitVec (difficulty.setWidth 64))
  else some (checkHash128 hash difficulty)

theorem mulPortable_eq (a b : UInt64) :
    mulPortable a b = (UInt64.ofNat (a.toNat * b.toNat), UInt64.ofNat (a.toNat * b.toNat / 2 ^ 64)) := by
  obtain ⟨hsum, hac, had, hbc, hbd⟩ := partials a b
  have hproduct : a.toNat * b.toNat < 2 ^ 64 * 2 ^ 64 := Nat.mul_lt_mul'' a.toNat_lt b.toNat_lt
  rw [mulPortable]
  generalize (a >>> 32) * (b >>> 32) = ac, (a >>> 32) * (b &&& (0xFFFFFFFF : UInt64)) = ad,
    (a &&& (0xFFFFFFFF : UInt64)) * (b >>> 32) = bc, (a &&& (0xFFFFFFFF : UInt64)) * (b &&& (0xFFFFFFFF : UInt64)) = bd,
    a.toNat * b.toNat = product at *
  have hlow : ∀ v : UInt64, (v &&& 0xFFFFFFFF).toNat < 2 ^ 32 := by
    intro v
    rw [toNat_low]
    exact Nat.mod_lt _ (by decide)
  have hx : (ad + bd >>> 32).toNat = ad.toNat + bd.toNat / 2 ^ 32 := by
    rw [toNat_add_of_lt (by rw [toNat_high]; omega), toNat_high]
  have hy : (ac + bc >>> 32).toNat = ac.toNat + bc.toNat / 2 ^ 32 := by
    rw [toNat_add_of_lt (by rw [toNat_high]; omega), toNat_high]
  generalize ad + bd >>> 32 = x, ac + bc >>> 32 = y at *
  have hr₁ : ((x &&& (0xFFFFFFFF : UInt64)) + (bc &&& (0xFFFFFFFF : UInt64))).toNat = x.toNat % 2 ^ 32 + bc.toNat % 2 ^ 32 := by
    have hlt := Nat.add_lt_add (hlow x) (hlow bc)
    rw [toNat_add_of_lt (hlt.trans (by decide)), toNat_low, toNat_low]
  generalize (x &&& (0xFFFFFFFF : UInt64)) + (bc &&& (0xFFFFFFFF : UInt64)) = r₁ at *
  have hx' := x.toNat_lt
  have hr₁' : r₁.toNat < 2 ^ 33 := by omega
  have hr₂ : (x >>> 32 + (y &&& (0xFFFFFFFF : UInt64)) + r₁ >>> 32).toNat =
      x.toNat / 2 ^ 32 + y.toNat % 2 ^ 32 + r₁.toNat / 2 ^ 32 := by
    have hfirst : (x >>> 32 + (y &&& (0xFFFFFFFF : UInt64))).toNat = x.toNat / 2 ^ 32 + y.toNat % 2 ^ 32 := by
      rw [toNat_add_of_lt (by rw [toNat_high, toNat_low]; omega), toNat_high, toNat_low]
    have hbound : (x >>> 32 + (y &&& (0xFFFFFFFF : UInt64))).toNat + (r₁ >>> 32).toNat < 2 ^ 64 := by
      rw [hfirst, toNat_high]
      omega
    rw [toNat_add_of_lt hbound, hfirst, toNat_high]
  generalize x >>> 32 + (y &&& (0xFFFFFFFF : UInt64)) + r₁ >>> 32 = r₂ at *
  have hr₃ : (y >>> 32 + r₂ >>> 32).toNat = y.toNat / 2 ^ 32 + r₂.toNat / 2 ^ 32 := by
    have hy' := y.toNat_lt
    have hr₂' := r₂.toNat_lt
    rw [toNat_add_of_lt (by rw [toNat_high, toNat_high]; omega), toNat_high, toNat_high]
  generalize y >>> 32 + r₂ >>> 32 = r₃ at *
  rw [Prod.mk.injEq, UInt64.or_comm (r₂ &&& 0xFFFFFFFF)]
  refine ⟨(ofNat_eq_of_toNat ?_).symm, (ofNat_eq_of_toNat ?_).symm⟩
  · rw [toNat_or_raised (hlow bd), toNat_low]
    omega
  · rw [toNat_or_raised (hlow r₂), toNat_low]
    omega

theorem mul_eq (target : Target) (a b : UInt64) :
    mul target a b = some (UInt64.ofNat (a.toNat * b.toNat), UInt64.ofNat (a.toNat * b.toNat / 2 ^ 64)) := by
  cases target with
  | x86_64 => exact mul128_eq a b
  | other => exact congrArg some (mulPortable_eq a b)

theorem toNat_decide_le {n : ℕ} (h : n < 2 * 2 ^ 64) : (decide (2 ^ 64 ≤ n)).toNat = n / 2 ^ 64 := by
  by_cases hle : 2 ^ 64 ≤ n
  · rw [decide_eq_true hle, Bool.toNat_true]
    omega
  · rw [decide_eq_false hle, Bool.toNat_false]
    omega

theorem toNat_cadd (a b : UInt64) : (cadd a b).toNat = (a.toNat + b.toNat) / 2 ^ 64 := by
  have ha := a.toNat_lt
  have hb := b.toNat_lt
  have heq : cadd a b = decide (2 ^ 64 ≤ a.toNat + b.toNat) := decide_eq_decide.mpr (add_lt_left_iff a b)
  rw [heq, toNat_decide_le (by omega)]

theorem toNat_cadc (a b : UInt64) (c : Bool) : (cadc a b c).toNat = (a.toNat + b.toNat + c.toNat) / 2 ^ 64 := by
  have ha := a.toNat_lt
  have hb := b.toNat_lt
  have hc := c.toNat_le
  have hlast : a + b = -1 ↔ (a.toNat + b.toNat) % 2 ^ 64 = 2 ^ 64 - 1 := by
    rw [← UInt64.toNat_inj, UInt64.toNat_add]
    rfl
  have heq : cadc a b c = decide (2 ^ 64 ≤ a.toNat + b.toNat + c.toNat) := by
    rw [Bool.eq_iff_iff, cadc, Bool.or_eq_true, Bool.and_eq_true, beq_iff_eq, decide_eq_true_iff, decide_eq_true_iff,
      add_lt_left_iff, hlast]
    cases c <;> simp only [Bool.false_eq_true, false_and, true_and, or_false, Bool.toNat_false, Bool.toNat_true] <;> omega
  rw [heq, toNat_decide_le (by omega)]

theorem checkHash64_eq (target : Target) (hash : Hash) (difficulty : UInt64) :
    checkHash64 target hash difficulty = some (decide (ofLittleEndian hash.bytes * difficulty.toNat < 2 ^ 256)) := by
  have hbound : ∀ v : UInt64, v.toNat * difficulty.toNat < 2 ^ 64 * 2 ^ 64 :=
    fun v => Nat.mul_lt_mul'' v.toNat_lt difficulty.toNat_lt
  have hlow : ∀ n : ℕ, (UInt64.ofNat n).toNat = n % 2 ^ 64 := fun n => UInt64.toNat_ofNat'
  have hhigh : ∀ n : ℕ, n < 2 ^ 64 * 2 ^ 64 → (UInt64.ofNat (n / 2 ^ 64)).toNat = n / 2 ^ 64 :=
    fun n hn => UInt64.toNat_ofNat_of_lt' (Nat.div_lt_of_lt_mul hn)
  have h₀ := hbound (word hash.bytes 0)
  have h₁ := hbound (word hash.bytes 1)
  have h₂ := hbound (word hash.bytes 2)
  have h₃ := hbound (word hash.bytes 3)
  have hsum : ofLittleEndian hash.bytes * difficulty.toNat = (word hash.bytes 0).toNat * difficulty.toNat +
      2 ^ 64 * ((word hash.bytes 1).toNat * difficulty.toNat + 2 ^ 64 * ((word hash.bytes 2).toNat * difficulty.toNat +
      2 ^ 64 * ((word hash.bytes 3).toNat * difficulty.toNat))) := by
    rw [ofLittleEndian_words]
    ring
  rw [checkHash64, mul_eq, mul_eq, mul_eq, mul_eq, hsum]
  generalize (word hash.bytes 0).toNat * difficulty.toNat = p₀, (word hash.bytes 1).toNat * difficulty.toNat = p₁,
    (word hash.bytes 2).toNat * difficulty.toNat = p₂, (word hash.bytes 3).toNat * difficulty.toNat = p₃ at *
  simp only [Option.bind_eq_bind, Option.bind_some, Option.pure_def]
  by_cases htop : UInt64.ofNat (p₃ / 2 ^ 64) = 0
  · have hzero : p₃ / 2 ^ 64 = 0 := by
      rw [← hhigh p₃ h₃, htop]
      rfl
    rw [if_neg (not_not.mpr htop), Option.some_inj, Bool.eq_iff_iff, Bool.not_eq_true', ← Bool.toNat_eq_zero, toNat_cadc,
      toNat_cadc, toNat_cadd, hhigh p₀ h₀, hhigh p₁ h₁, hhigh p₂ h₂, hlow, hlow, hlow, decide_eq_true_iff]
    omega
  · have hpos : p₃ / 2 ^ 64 ≠ 0 := by
      intro hzero
      exact htop (by rw [hzero]; rfl)
    rw [if_pos htop, Option.some_inj, eq_comm, decide_eq_false_iff_not]
    omega

theorem checkHash128_eq (hash : Hash) (difficulty : Difficulty) :
    checkHash128 hash difficulty = decide (ofLittleEndian hash.bytes * difficulty.toNat < 2 ^ 256) := by
  have hnext : ∀ {v : BitVec 512} {n : ℕ} (w : UInt64), v.toNat < 2 ^ n → n ≤ 192 →
      (v <<< 64 ||| w.toBitVec.setWidth 512).toNat = v.toNat * 2 ^ 64 + w.toNat ∧
      (v <<< 64 ||| w.toBitVec.setWidth 512).toNat < 2 ^ (n + 64) := by
    intro v n w hv hn
    have hw := w.toNat_lt
    have hle : 2 ^ n ≤ 2 ^ 192 := Nat.pow_le_pow_right (by decide) hn
    have heq := toNat_shiftLeft_or (v := v) (by omega) w
    refine ⟨heq, ?_⟩
    rw [heq, Nat.pow_add]
    omega
  have hzero : (0 : BitVec 512).toNat = 0 := BitVec.toNat_zero
  obtain ⟨h₃, hlt₃⟩ := hnext (n := 0) (word hash.bytes 3) (hzero.trans_lt Nat.zero_lt_one) (by decide)
  obtain ⟨h₂, hlt₂⟩ := hnext (word hash.bytes 2) hlt₃ (by decide)
  obtain ⟨h₁, hlt₁⟩ := hnext (word hash.bytes 1) hlt₂ (by decide)
  obtain ⟨h₀, hlt₀⟩ := hnext (word hash.bytes 0) hlt₁ (by decide)
  have hval : ((List.range 4).foldl (fun (hashVal : BitVec 512) i =>
      (hashVal <<< 64) ||| (word hash.bytes (3 - i)).toBitVec.setWidth 512) (0 : BitVec 512)).toNat =
      ofLittleEndian hash.bytes := by
    rw [ofLittleEndian_words]
    simp only [List.range, List.range.loop, List.foldl]
    rw [h₀, h₁, h₂, h₃, hzero]
    ring
  have hhash : ofLittleEndian hash.bytes < 2 ^ 256 := by
    have hlt := ofLittleEndian_lt hash.bytes
    rw [hash.length_eq] at hlt
    exact hlt.trans_le (by norm_num)
  have hproduct : ofLittleEndian hash.bytes * difficulty.toNat < 2 ^ 256 * 2 ^ 128 := Nat.mul_lt_mul'' hhash difficulty.isLt
  have hdifficulty : (difficulty.setWidth 512).toNat = difficulty.toNat := BitVec.toNat_setWidth_of_le (by decide)
  have hmax : max256bit.toNat = 2 ^ 256 - 1 := by
    rw [max256bit, BitVec.toNat_setWidth_of_le (by decide), BitVec.toNat_allOnes]
  rw [checkHash128, decide_eq_decide, BitVec.le_def, BitVec.toNat_mul, hval, hdifficulty, hmax, Nat.mod_eq_of_lt (by omega)]
  omega

theorem checkHash_iff (target : Target) (hash : Hash) :
    (∀ difficulty : Difficulty, checkHash target hash difficulty =
      some (decide (ofLittleEndian hash.bytes * difficulty.toNat < 2 ^ 256))) ∧
    ∀ difficulty : UInt64, checkHash64 target hash difficulty =
      some (checkHash128 hash (difficulty.toBitVec.setWidth 128)) := by
  refine ⟨fun difficulty => ?_, fun difficulty => ?_⟩
  · rw [checkHash]
    split_ifs with hle
    · have hmax : max64bit.toNat = 2 ^ 64 - 1 := by
        rw [max64bit, BitVec.toNat_setWidth_of_le (by decide), BitVec.toNat_allOnes]
      rw [BitVec.le_def, hmax] at hle
      rw [checkHash64_eq, UInt64.toNat_ofBitVec, BitVec.toNat_setWidth, Nat.mod_eq_of_lt (by omega)]
    · rw [checkHash128_eq]
  · rw [checkHash64_eq, checkHash128_eq, BitVec.toNat_setWidth_of_le (by decide), UInt64.toNat_toBitVec]

end Velkavo.Core
