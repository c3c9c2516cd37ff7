import Mathlib.Algebra.Order.Floor.Div
import Velkavo.Core.CheckHash
import Velkavo.Core.Difficulty

namespace Velkavo.Core

open WordArith

section

variable {α : Type} [Zero α] [Sub α] [LT α] [DecidableLT α] (timestamps : List UInt64) (cumulativeDifficulties : List α)

def resize (l : List α) (n : ℕ) : List α := l.take n ++ List.replicate (n - l.length) 0

def spanAndWork : Option (Option (UInt64 × α)) := do
  let cut := difficultyWindow < timestamps.length
  let timestamps := if cut then timestamps.take difficultyWindow else timestamps
  let cumulativeDifficulties := if cut then resize cumulativeDifficulties difficultyWindow else cumulativeDifficulties
  let length := timestamps.length
  guard (length = cumulativeDifficulties.length)
  if length ≤ 1 then return none
  guard (length ≤ difficultyWindow)
  let timestamps := sorted timestamps
  guard (cutBegin length + 2 ≤ cutEnd length ∧ cutEnd length ≤ length)
  let timeSpan := timestamps.getD (cutEnd length - 1) 0 - timestamps.getD (cutBegin length) 0
  let timeSpan := if timeSpan = 0 then 1 else timeSpan
  let totalWork := cumulativeDifficulties.getD (cutEnd length - 1) 0 - cumulativeDifficulties.getD (cutBegin length) 0
  guard (0 < totalWork)
  return some (timeSpan, totalWork)

end

def max128bit : BitVec 256 := (BitVec.allOnes 128).setWidth 256

def nextDifficultyAsserted (timestamps : List UInt64) (cumulativeDifficulties : List Difficulty) (targetSeconds : UInt64) :
    Option Difficulty := do
  match ← spanAndWork timestamps cumulativeDifficulties with
  | none => return 1
  | some (timeSpan, totalWork) =>
    let timeSpan : BitVec 256 := timeSpan.toBitVec.setWidth 256
    let res := (totalWork.setWidth 256 * targetSeconds.toBitVec.setWidth 256 + timeSpan - 1) / timeSpan
    if max128bit < res then return 0
    return res.setWidth 128

def nextDifficulty64 (target : Target) (timestamps cumulativeDifficulties : List UInt64) (targetSeconds : UInt64) :
    Option UInt64 := do
  match ← spanAndWork timestamps cumulativeDifficulties with
  | none => return 1
  | some (timeSpan, totalWork) =>
    let product ← mul target totalWork targetSeconds
    if product.2 ≠ 0 ∨ product.1 + timeSpan - 1 < product.1 then return 0
    return (product.1 + timeSpan - 1) / timeSpan

def windowStart (n : ℕ) : ℕ := (n - 600) ⌈/⌉ 2

def windowLast (n : ℕ) : ℕ := windowStart n + min n 600 - 1

def windowSpan (times : List UInt64) (n : ℕ) : ℕ :=
  max 1 ((times.getD (windowLast n) 0).toNat - (times.getD (windowStart n) 0).toNat)

def windowWork (work : List ℕ) (n : ℕ) : ℕ := work.getD (windowLast n) 0 - work.getD (windowStart n) 0

theorem cutBegin_eq (n : ℕ) : cutBegin n = windowStart n := by
  rw [cutBegin, windowStart, Nat.ceilDiv_eq_add_pred_div, difficultyWindow, difficultyCut]
  split_ifs <;> omega

theorem cutEnd_eq {n : ℕ} (h : 0 < n) : cutEnd n = windowLast n + 1 := by
  rw [cutEnd, windowLast, ← cutBegin_eq, cutBegin, difficultyWindow, difficultyCut]
  split_ifs <;> omega

theorem window_lt {n : ℕ} (h : 2 ≤ n) : windowStart n < windowLast n ∧ windowLast n < n := by
  rw [windowLast, windowStart, Nat.ceilDiv_eq_add_pred_div]
  omega

structure Numeral {α : Type} [Zero α] [Sub α] [LT α] (value : α → ℕ) : Prop where
  zero : value 0 = 0
  lt : ∀ a b, a < b ↔ value a < value b
  sub : ∀ a b, b < a → value (a - b) = value a - value b

theorem numeral_difficulty : Numeral (BitVec.toNat : Difficulty → ℕ) where
  zero := rfl
  lt _ _ := BitVec.lt_def
  sub _ _ h := BitVec.toNat_sub_of_le (BitVec.le_of_lt h)

theorem numeral_uint64 : Numeral UInt64.toNat where
  zero := rfl
  lt _ _ := UInt64.lt_iff_toNat_lt
  sub _ _ h := UInt64.toNat_sub_of_le _ _ (UInt64.le_of_lt h)

section

variable {α : Type} [Zero α] [Sub α] [LT α] [DecidableLT α] {value : α → ℕ} {timestamps : List UInt64}
  {cumulativeDifficulties : List α}

omit [Sub α] [LT α] [DecidableLT α] in
theorem take_eq_of_cut (h : timestamps.length = cumulativeDifficulties.length) :
    (if difficultyWindow < timestamps.length then timestamps.take difficultyWindow else timestamps) =
      timestamps.take difficultyWindow ∧
    (if difficultyWindow < timestamps.length then resize cumulativeDifficulties difficultyWindow
      else cumulativeDifficulties) = cumulativeDifficulties.take difficultyWindow := by
  split_ifs with hcut
  · rw [resize, Nat.sub_eq_zero_of_le (by omega), List.replicate_zero, List.append_nil]
    exact ⟨rfl, rfl⟩
  · rw [List.take_of_length_le (by omega), List.take_of_length_le (by omega)]
    exact ⟨rfl, rfl⟩

theorem spanAndWork_short (h : timestamps.length = cumulativeDifficulties.length) (hshort : timestamps.length ≤ 1) :
    spanAndWork timestamps cumulativeDifficulties = some none := by
  have hlength : (timestamps.take difficultyWindow).length = (cumulativeDifficulties.take difficultyWindow).length := by
    rw [List.length_take, List.length_take, h]
  rw [spanAndWork]
  dsimp only
  rw [(take_eq_of_cut h).1, (take_eq_of_cut h).2, guard, if_pos hlength, if_pos ((List.length_take_le' _ _).trans hshort)]
  rfl

omit [Sub α] [LT α] [DecidableLT α] in
theorem getD_take_window {i : ℕ} (h : i < min cumulativeDifficulties.length difficultyWindow) :
    (cumulativeDifficulties.take difficultyWindow).getD i 0 = cumulativeDifficulties.getD i 0 := by
  rw [List.getD_eq_getElem?_getD, List.getD_eq_getElem?_getD, List.getElem?_take_of_lt (by omega)]

theorem toNat_timeSpan {times : List UInt64} (hsorted : times.Pairwise (· ≤ ·)) (hlong : 2 ≤ times.length) :
    (if times.getD (windowLast times.length) 0 - times.getD (windowStart times.length) 0 = 0 then 1
      else times.getD (windowLast times.length) 0 - times.getD (windowStart times.length) 0).toNat =
    windowSpan times times.length := by
  obtain ⟨hlt, hlast⟩ := window_lt hlong
  have hle : times.getD (windowStart times.length) 0 ≤ times.getD (windowLast times.length) 0 := by
    rw [List.getD_eq_getElem _ _ hlast, List.getD_eq_getElem _ _ (hlt.trans hlast)]
    exact List.pairwise_iff_getElem.mp hsorted _ _ _ _ hlt
  rw [windowSpan, ← UInt64.toNat_sub_of_le _ _ hle]
  split_ifs with hzero
  · rw [hzero]
    rfl
  · have hne : (times.getD (windowLast times.length) 0 - times.getD (windowStart times.length) 0).toNat ≠ 0 :=
      fun heq => hzero (UInt64.toNat_inj.mp heq)
    omega

omit [DecidableLT α] in
theorem value_totalWork (hvalue : Numeral value) (hincreasing : cumulativeDifficulties.Pairwise (· < ·)) {n : ℕ}
    (hlong : 2 ≤ n) (hn : n ≤ cumulativeDifficulties.length) :
    value (cumulativeDifficulties.getD (windowLast n) 0 - cumulativeDifficulties.getD (windowStart n) 0) =
      windowWork (cumulativeDifficulties.map value) n ∧
    0 < value (cumulativeDifficulties.getD (windowLast n) 0 - cumulativeDifficulties.getD (windowStart n) 0) := by
  obtain ⟨hlt, hlast⟩ := window_lt hlong
  have hwork : cumulativeDifficulties.getD (windowStart n) 0 < cumulativeDifficulties.getD (windowLast n) 0 := by
    rw [List.getD_eq_getElem _ _ (by omega), List.getD_eq_getElem _ _ (by omega)]
    exact List.pairwise_iff_getElem.mp hincreasing _ _ _ _ hlt
  have hmap : ∀ i, (cumulativeDifficulties.map value).getD i 0 = value (cumulativeDifficulties.getD i 0) := by
    intro i
    rw [← hvalue.zero, List.getD_map]
  rw [windowWork, hmap, hmap, hvalue.sub _ _ hwork]
  exact ⟨rfl, Nat.sub_pos_of_lt ((hvalue.lt _ _).mp hwork)⟩

theorem spanAndWork_eq (hvalue : Numeral value) (h : timestamps.length = cumulativeDifficulties.length)
    (hlong : 2 ≤ timestamps.length) (hincreasing : cumulativeDifficulties.Pairwise (· < ·)) {times : List UInt64}
    (htimes : times.Perm (timestamps.take difficultyWindow)) (hsorted : times.Pairwise (· ≤ ·)) {n : ℕ}
    (hn : n = min timestamps.length difficultyWindow) :
    ∃ span work, spanAndWork timestamps cumulativeDifficulties = some (some (span, work)) ∧
      span.toNat = windowSpan times n ∧ value work = windowWork (cumulativeDifficulties.map value) n := by
  have hwindow : difficultyWindow = 720 := rfl
  have hlength : (timestamps.take difficultyWindow).length = n := by
    rw [List.length_take, Nat.min_comm, hn]
  have hlength' : (cumulativeDifficulties.take difficultyWindow).length = n := by
    rw [List.length_take, ← h, Nat.min_comm, hn]
  have hsort : sorted (timestamps.take difficultyWindow) = times :=
    (sorted_eq_of_perm htimes.symm).trans (List.Pairwise.insertionSort_eq hsorted)
  have htimesLength : times.length = n := htimes.length_eq.trans hlength
  obtain ⟨hlt, hlast⟩ := window_lt (n := n) (by omega)
  have hspan := toNat_timeSpan hsorted (by omega)
  rw [htimesLength] at hspan
  obtain ⟨hwork, hpos⟩ := value_totalWork hvalue hincreasing (n := n) (by omega) (by omega)
  refine ⟨_, _, ?_, hspan, hwork⟩
  rw [← hvalue.zero, ← hvalue.lt] at hpos
  rw [spanAndWork]
  dsimp only
  rw [(take_eq_of_cut h).1, (take_eq_of_cut h).2, hlength, hlength', hsort, cutEnd_eq (by omega), cutBegin_eq,
    Nat.add_sub_cancel, getD_take_window (by omega), getD_take_window (by omega), guard, guard, guard, guard, if_pos rfl,
    if_neg (by omega), if_pos (by omega), if_pos (by omega), if_pos hpos]
  rfl

end

theorem toNat_quotient (work : Difficulty) (targetSeconds : UInt64) {span : UInt64} (h : 0 < span.toNat) :
    ((work.setWidth 256 * targetSeconds.toBitVec.setWidth 256 + span.toBitVec.setWidth 256 - 1) /
      span.toBitVec.setWidth 256).toNat = work.toNat * targetSeconds.toNat ⌈/⌉ span.toNat := by
  have hspan : (span.toBitVec.setWidth 256).toNat = span.toNat := BitVec.toNat_setWidth_of_le (by decide)
  have htarget : (targetSeconds.toBitVec.setWidth 256).toNat = targetSeconds.toNat := BitVec.toNat_setWidth_of_le (by decide)
  have hwork : (work.setWidth 256).toNat = work.toNat := BitVec.toNat_setWidth_of_le (by decide)
  have hlt := span.toNat_lt
  have hproduct : work.toNat * targetSeconds.toNat < 2 ^ 128 * 2 ^ 64 := Nat.mul_lt_mul'' work.isLt targetSeconds.toNat_lt
  have hsum : (work.setWidth 256 * targetSeconds.toBitVec.setWidth 256 + span.toBitVec.setWidth 256).toNat =
      work.toNat * targetSeconds.toNat + span.toNat := by
    rw [BitVec.toNat_add, BitVec.toNat_mul, hwork, htarget, hspan, Nat.mod_eq_of_lt (by omega), Nat.mod_eq_of_lt (by omega)]
  have hone : 1 ≤ work.setWidth 256 * targetSeconds.toBitVec.setWidth 256 + span.toBitVec.setWidth 256 := by
    rw [BitVec.le_def, hsum]
    exact h.trans_le (Nat.le_add_left _ _)
  rw [BitVec.toNat_udiv, BitVec.toNat_sub_of_le hone, hsum, hspan, Nat.ceilDiv_eq_add_pred_div]
  rfl

section

variable {timestamps times : List UInt64} {cumulativeDifficulties : List Difficulty} {targetSeconds : UInt64}

theorem nextDifficultyAsserted_eq (h : timestamps.length = cumulativeDifficulties.length) (hlong : 2 ≤ timestamps.length)
    (hincreasing : cumulativeDifficulties.Pairwise (· < ·)) (htimes : times.Perm (timestamps.take difficultyWindow))
    (hsorted : times.Pairwise (· ≤ ·)) {n x : ℕ} (hn : n = min timestamps.length difficultyWindow)
    (hx : x = windowWork (cumulativeDifficulties.map BitVec.toNat) n * targetSeconds.toNat ⌈/⌉ windowSpan times n) :
    nextDifficultyAsserted timestamps cumulativeDifficulties targetSeconds = some (BitVec.ofNat 128 (if x < 2 ^ 128 then x else 0)) := by
  obtain ⟨span, work, heq, hspan, hwork⟩ := spanAndWork_eq numeral_difficulty h hlong hincreasing htimes hsorted hn
  have hpos : 0 < span.toNat := by
    rw [hspan, windowSpan]
    omega
  have hquotient := toNat_quotient work targetSeconds hpos
  rw [hspan, hwork, ← hx] at hquotient
  have hmax : max128bit.toNat = 2 ^ 128 - 1 := by
    rw [max128bit, BitVec.toNat_setWidth_of_le (by decide), BitVec.toNat_allOnes]
  rw [nextDifficultyAsserted, heq]
  simp only [Option.bind_eq_bind, Option.bind_some, Option.pure_def, BitVec.lt_def]
  rw [hquotient, hmax]
  split_ifs with hgt hlt
  · omega
  · rfl
  · rw [Option.some_inj, ← BitVec.toNat_inj, BitVec.toNat_setWidth, hquotient, BitVec.toNat_ofNat]
  · omega

theorem nextDifficulty64_eq (target : Target) {cumulative : List UInt64} (h : timestamps.length = cumulative.length)
    (hlong : 2 ≤ timestamps.length) (hincreasing : cumulative.Pairwise (· < ·))
    (htimes : times.Perm (timestamps.take difficultyWindow)) (hsorted : times.Pairwise (· ≤ ·)) {n x : ℕ}
    (hn : n = min timestamps.length difficultyWindow)
    (hx : x = windowWork (cumulative.map UInt64.toNat) n * targetSeconds.toNat ⌈/⌉ windowSpan times n) :
    ∃ d, nextDifficulty64 target timestamps cumulative targetSeconds = some d ∧ (d ≠ 0 → d.toNat = x) := by
  obtain ⟨span, work, heq, hspan, hwork⟩ := spanAndWork_eq numeral_uint64 h hlong hincreasing htimes hsorted hn
  have hpos : 0 < span.toNat := by
    rw [hspan, windowSpan]
    omega
  rw [← hspan, ← hwork, Nat.ceilDiv_eq_add_pred_div] at hx
  have hproduct : work.toNat * targetSeconds.toNat < 2 ^ 64 * 2 ^ 64 := Nat.mul_lt_mul'' work.toNat_lt targetSeconds.toNat_lt
  have hassoc : ∀ low : UInt64, low + span - 1 = low + (span - 1) := by
    intro low
    rw [UInt64.sub_eq_add_neg, UInt64.sub_eq_add_neg, UInt64.add_assoc]
  have hpred : (span - 1).toNat = span.toNat - 1 := UInt64.toNat_sub_of_le _ _ (UInt64.le_iff_toNat_le.mpr hpos)
  rw [nextDifficulty64, heq]
  simp only [Option.bind_eq_bind, Option.bind_some, Option.pure_def, mul_eq, hassoc, add_lt_left_iff, hpred]
  generalize work.toNat * targetSeconds.toNat = product at *
  split_ifs with hover
  · exact ⟨0, rfl, fun hne => absurd rfl hne⟩
  · rw [not_or, not_not] at hover
    have hhigh : product / 2 ^ 64 = 0 := by
      rw [← UInt64.toNat_ofNat_of_lt' (n := product / 2 ^ 64) (Nat.div_lt_of_lt_mul hproduct), hover.1]
      rfl
    have hlt : product < 2 ^ 64 := by omega
    have hlow : (UInt64.ofNat product).toNat = product := UInt64.toNat_ofNat_of_lt' hlt
    rw [hlow] at hover
    refine ⟨_, rfl, fun _ => ?_⟩
    rw [UInt64.toNat_div, toNat_add_of_lt (by rw [hlow, hpred]; omega), hlow, hpred, hx, Nat.add_sub_assoc hpos]

end

theorem next_difficulty_correct (target : Target) (timestamps : List UInt64) (cumulativeDifficulties : List Difficulty)
    (targetSeconds : UInt64) (h : timestamps.length = cumulativeDifficulties.length)
    (hincreasing : cumulativeDifficulties.Pairwise (· < ·)) :
    (timestamps.length ≤ 1 → nextDifficultyAsserted timestamps cumulativeDifficulties targetSeconds = some 1) ∧
    (2 ≤ timestamps.length → ∀ times : List UInt64, times.Perm (timestamps.take 720) → times.Pairwise (· ≤ ·) →
      ∀ n x, n = min timestamps.length 720 →
      x = windowWork (cumulativeDifficulties.map BitVec.toNat) n * targetSeconds.toNat ⌈/⌉ windowSpan times n →
      nextDifficultyAsserted timestamps cumulativeDifficulties targetSeconds =
        some (BitVec.ofNat 128 (if x < 2 ^ 128 then x else 0))) ∧
    (∀ timestamps' : List UInt64, timestamps'.length = timestamps.length →
      (timestamps'.take 720).Perm (timestamps.take 720) →
      nextDifficultyAsserted timestamps' cumulativeDifficulties targetSeconds =
        nextDifficultyAsserted timestamps cumulativeDifficulties targetSeconds) ∧
    ∀ cumulative : List UInt64, cumulativeDifficulties = cumulative.map (fun d => d.toBitVec.setWidth 128) →
      ∃ d, nextDifficulty64 target timestamps cumulative targetSeconds = some d ∧
        (d ≠ 0 → nextDifficultyAsserted timestamps cumulativeDifficulties targetSeconds =
          some (d.toBitVec.setWidth 128)) := by
  have hshort : ∀ {timestamps' : List UInt64}, timestamps'.length = cumulativeDifficulties.length →
      timestamps'.length ≤ 1 → nextDifficultyAsserted timestamps' cumulativeDifficulties targetSeconds = some 1 := by
    intro timestamps' h' hle
    rw [nextDifficultyAsserted, spanAndWork_short h' hle]
    rfl
  have hwindow : difficultyWindow = 720 := rfl
  have hsorted : (sorted (timestamps.take 720)).Pairwise (· ≤ ·) := List.pairwise_insertionSort _ _
  have hperm : (sorted (timestamps.take 720)).Perm (timestamps.take 720) := List.perm_insertionSort _ _
  refine ⟨hshort h, fun hlong times htimes hsorted n x hn hx => ?_, fun timestamps' hlength htimes => ?_,
    fun cumulative hcumulative => ?_⟩
  · exact nextDifficultyAsserted_eq h hlong hincreasing htimes hsorted hn hx
  · rcases Nat.lt_or_ge 1 timestamps.length with hlong | hle
    · rw [nextDifficultyAsserted_eq (hlength.trans h) (by omega) hincreasing (hperm.trans htimes.symm) hsorted rfl rfl,
        nextDifficultyAsserted_eq h hlong hincreasing hperm hsorted rfl rfl, hlength]
    · rw [hshort h hle, hshort (hlength.trans h) (by omega)]
  · subst hcumulative
    have hwidth : ∀ d : UInt64, (d.toBitVec.setWidth 128).toNat = d.toNat := fun d => BitVec.toNat_setWidth_of_le (by decide)
    rw [List.length_map] at h
    have hincreasing' : cumulative.Pairwise (· < ·) := by
      refine (List.pairwise_map.mp hincreasing).imp fun hlt => ?_
      rwa [BitVec.lt_def, hwidth, hwidth] at hlt
    have hmap : (cumulative.map fun d => d.toBitVec.setWidth 128).map BitVec.toNat = cumulative.map UInt64.toNat := by
      rw [List.map_map]
      exact List.map_congr_left fun d _ => hwidth d
    rcases Nat.lt_or_ge 1 timestamps.length with hlong | hle
    · obtain ⟨d, hd, hvalue⟩ := nextDifficulty64_eq target h hlong hincreasing' hperm hsorted rfl
        (x := windowWork (cumulative.map UInt64.toNat) _ * targetSeconds.toNat ⌈/⌉ windowSpan _ _) rfl
      refine ⟨d, hd, fun hne => ?_⟩
      have hlt := d.toNat_lt
      rw [nextDifficultyAsserted_eq (by rwa [List.length_map]) hlong hincreasing hperm hsorted rfl rfl, hmap, ← hvalue hne,
        if_pos (by omega), Option.some_inj, ← BitVec.toNat_inj, hwidth, BitVec.toNat_ofNat, Nat.mod_eq_of_lt (by omega)]
    · refine ⟨1, ?_, fun _ => hshort (by rwa [List.length_map]) hle⟩
      rw [nextDifficulty64, spanAndWork_short h hle]
      rfl

def steadyWork (length : ℕ) : List Difficulty := (List.range length).map (BitVec.ofNat 128)

theorem pairwise_steadyWork {length : ℕ} (h : length ≤ 2 ^ 128) : (steadyWork length).Pairwise (· < ·) := by
  refine List.pairwise_map.mpr (List.pairwise_lt_range.imp_of_mem fun {i j} hi hj hlt => ?_)
  rw [List.mem_range] at hi hj
  rwa [BitVec.lt_def, BitVec.toNat_ofNat, BitVec.toNat_ofNat, Nat.mod_eq_of_lt (by omega), Nat.mod_eq_of_lt (by omega)]

theorem next_difficulty_correct_steady :
    nextDifficultyAsserted [3, 1] [1, 5] 120 = some 240 ∧ nextDifficulty64 .x86_64 [3, 1] [1, 5] 120 = some 240 := by
  have hcorrect := next_difficulty_correct .x86_64 [3, 1] [1, 5] 120 rfl (by decide)
  refine ⟨?_, by decide +kernel⟩
  exact hcorrect.2.1 (by decide) [1, 3] (by decide) (by decide) 2 240 (by decide) (by decide +kernel)

theorem next_difficulty_reordered :
    (List.replicate 720 0 ++ List.replicate 100 (1000 : UInt64)).Perm
      (List.replicate 620 0 ++ List.replicate 100 1000 ++ List.replicate 100 0) ∧
    (steadyWork 820).Pairwise (· < ·) ∧
    nextDifficultyAsserted (List.replicate 720 0 ++ List.replicate 100 1000) (steadyWork 820) 120 ≠
      nextDifficultyAsserted (List.replicate 620 0 ++ List.replicate 100 1000 ++ List.replicate 100 0) (steadyWork 820) 120 := by
  refine ⟨?_, pairwise_steadyWork (by decide), by decide +kernel⟩
  · have hsplit : List.replicate 720 (0 : UInt64) = List.replicate 620 0 ++ List.replicate 100 0 := by
      rw [List.replicate_append_replicate]
    rw [hsplit, List.append_assoc, List.append_assoc]
    exact List.Perm.append_left _ List.perm_append_comm

end Velkavo.Core
