import Mathlib.Algebra.Order.BigOperators.Group.List
import Mathlib.Algebra.Order.Group.Nat
import Mathlib.Data.List.Nodup
import Mathlib.Data.Nat.ModEq

namespace Velkavo.Cryptonote

def absoluteFrom (base : UInt64) : List UInt64 → List UInt64
  | [] => []
  | off :: rest => (base + off) :: absoluteFrom (base + off) rest

/-- In 64-bit arithmetic: a sum that does not fit starts again at 0. -/
def relativeOutputOffsetsToAbsolute (off : List UInt64) : List UInt64 := absoluteFrom 0 off

def differencesFrom (base : UInt64) : List UInt64 → List UInt64
  | [] => []
  | a :: rest => (a - base) :: differencesFrom a rest

def absoluteOutputOffsetsToRelative (off : List UInt64) : List UInt64 := differencesFrom 0 (off.mergeSort fun a b => a ≤ b)

theorem absoluteFrom_differencesFrom (base : UInt64) (off : List UInt64) :
    absoluteFrom base (differencesFrom base off) = off := by
  induction off generalizing base with
  | nil => rfl
  | cons a rest ih => rw [differencesFrom, absoluteFrom, UInt64.add_comm, UInt64.sub_add_cancel, ih]

variable {off : List UInt64} {a : UInt64}

theorem relativeOutputOffsetsToAbsolute_absolute (h : off.Pairwise (· ≤ ·)) :
    relativeOutputOffsetsToAbsolute (absoluteOutputOffsetsToRelative off) = off := by
  have hsort : off.mergeSort (fun a b => a ≤ b) = off := List.mergeSort_of_pairwise (h.imp decide_eq_true)
  rw [relativeOutputOffsetsToAbsolute, absoluteOutputOffsetsToRelative, hsort, absoluteFrom_differencesFrom]

def offsetSum (off : List UInt64) : ℕ := (off.map UInt64.toNat).sum

def NoRound (off : List UInt64) : Prop :=
  ∀ i j, 0 < i → i < j → j ≤ off.length → ¬2 ^ 64 ∣ offsetSum ((off.take j).drop i)

theorem length_absoluteFrom (base : UInt64) (off : List UInt64) :
    (absoluteFrom base off).length = off.length := by
  induction off generalizing base with
  | nil => rfl
  | cons o rest ih => rw [absoluteFrom, List.length_cons, ih, List.length_cons]

theorem length_relativeOutputOffsetsToAbsolute (off : List UInt64) :
    (relativeOutputOffsetsToAbsolute off).length = off.length := length_absoluteFrom 0 off

theorem toNat_absoluteFrom {base : UInt64} {i : ℕ}
    (h : (absoluteFrom base off)[i]? = some a) :
    a.toNat = (base.toNat + offsetSum (off.take (i + 1))) % 2 ^ 64 := by
  induction off generalizing base i with
  | nil => cases h
  | cons o rest ih =>
    cases i with
    | zero =>
      cases h
      rw [UInt64.toNat_add]
      simp [offsetSum]
    | succ i =>
      rw [ih h, UInt64.toNat_add, Nat.mod_add_mod, List.take_succ_cons, offsetSum, offsetSum, List.map_cons,
        List.sum_cons, Nat.add_assoc]

theorem toNat_absolute {i : ℕ}
    (h : (relativeOutputOffsetsToAbsolute off)[i]? = some a) :
    a.toNat = offsetSum (off.take (i + 1)) % 2 ^ 64 := by
  have hsum := toNat_absoluteFrom h
  rwa [UInt64.toNat_zero, Nat.zero_add] at hsum

theorem mem_absolute_iff :
    a ∈ relativeOutputOffsetsToAbsolute off ↔
      ∃ n, 0 < n ∧ n ≤ off.length ∧ a.toNat = offsetSum (off.take n) % 2 ^ 64 := by
  rw [List.mem_iff_getElem?]
  constructor
  · rintro ⟨i, hi⟩
    have hlt := (List.getElem?_eq_some_iff.mp hi).1
    rw [length_relativeOutputOffsetsToAbsolute] at hlt
    exact ⟨i + 1, Nat.succ_pos i, hlt, toNat_absolute hi⟩
  · rintro ⟨n, hpos, hle, ha⟩
    have hlt : n - 1 < (relativeOutputOffsetsToAbsolute off).length := by
      rw [length_relativeOutputOffsetsToAbsolute]
      omega
    refine ⟨n - 1, ?_⟩
    rw [List.getElem?_eq_getElem hlt, Option.some_inj, ← UInt64.toNat_inj, ha,
      toNat_absolute (List.getElem?_eq_getElem hlt), Nat.sub_add_cancel hpos]

theorem toNat_getLast_absolute
    (h : (relativeOutputOffsetsToAbsolute off).getLast? = some a) : a.toNat = offsetSum off % 2 ^ 64 := by
  rw [List.getLast?_eq_getElem?, length_relativeOutputOffsetsToAbsolute] at h
  have hlt := (List.getElem?_eq_some_iff.mp h).1
  rw [length_relativeOutputOffsetsToAbsolute] at hlt
  rw [toNat_absolute h, List.take_of_length_le (by omega)]

theorem offsetSum_take (off : List UInt64) {i j : ℕ} (h : i ≤ j) :
    offsetSum (off.take j) = offsetSum (off.take i) + offsetSum ((off.take j).drop i) := by
  have hsplit := List.take_append_drop i (off.take j)
  rw [List.take_take, Nat.min_eq_left h] at hsplit
  calc offsetSum (off.take j) = offsetSum (off.take i ++ (off.take j).drop i) := by rw [hsplit]
    _ = offsetSum (off.take i) + offsetSum ((off.take j).drop i) := by
      rw [offsetSum, List.map_append, List.sum_append]
      rfl

theorem nodup_absolute_iff (off : List UInt64) :
    (relativeOutputOffsetsToAbsolute off).Nodup ↔ NoRound off := by
  have hlen := length_relativeOutputOffsetsToAbsolute off
  have hget : ∀ {i} (hi : i < off.length), ∃ a, (relativeOutputOffsetsToAbsolute off)[i]? = some a :=
    fun hi => ⟨_, List.getElem?_eq_getElem (by rwa [hlen])⟩
  -- two sums agree exactly when the run of offsets between them goes around
  have heq : ∀ {i j : ℕ} {a b : UInt64}, i < j → (relativeOutputOffsetsToAbsolute off)[i]? = some a →
      (relativeOutputOffsetsToAbsolute off)[j]? = some b →
      (a = b ↔ 2 ^ 64 ∣ offsetSum ((off.take (j + 1)).drop (i + 1))) := by
    intro i j a b hij ha hb
    have hiff := Nat.modEq_iff_dvd' (n := 2 ^ 64)
      (Nat.le_add_right (offsetSum (off.take (i + 1))) (offsetSum ((off.take (j + 1)).drop (i + 1))))
    rw [Nat.add_sub_cancel_left] at hiff
    rw [← UInt64.toNat_inj, toNat_absolute ha, toNat_absolute hb, offsetSum_take off (by omega : i + 1 ≤ j + 1)]
    exact hiff
  rw [List.nodup_iff_getElem?_ne_getElem?]
  constructor
  · intro hne i j hi hij hj hdvd
    obtain ⟨a, ha⟩ := hget (by omega : i - 1 < off.length)
    obtain ⟨b, hb⟩ := hget (by omega : j - 1 < off.length)
    apply hne (i - 1) (j - 1) (by omega) (by rw [hlen]; omega)
    rw [ha, hb, Option.some_inj, heq (by omega) ha hb]
    rwa [Nat.sub_add_cancel hi, Nat.sub_add_cancel (by omega : 1 ≤ j)]
  · intro hround i j hij hj hsame
    rw [hlen] at hj
    obtain ⟨a, ha⟩ := hget (hij.trans hj)
    obtain ⟨b, hb⟩ := hget hj
    rw [ha, hb, Option.some_inj, heq hij ha hb] at hsame
    exact hround (i + 1) (j + 1) (Nat.succ_pos i) (by omega) hj hsame

end Velkavo.Cryptonote
