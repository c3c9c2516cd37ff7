import Velkavo.Common.StringTools
import Mathlib.Data.List.TakeWhile

namespace Velkavo.Cryptonote

open ByteCodec StringTools

def dot : UInt8 := 0x2e

def zeroDigit : UInt8 := 0x30

def insertMoneyDecimalPoint (s : Bytes) (decimalPoint : ℕ) : Bytes :=
  let s := List.replicate (decimalPoint + 1 - s.length) zeroDigit ++ s
  if decimalPoint > 0 then s.take (s.length - decimalPoint) ++ dot :: s.drop (s.length - decimalPoint) else s

def printMoney (decimalPoint : ℕ) (amount : UInt64) : Bytes :=
  insertMoneyDecimalPoint (decimal amount.toNat) decimalPoint

def trim (s : Bytes) : Bytes := ((s.dropWhile isSpace).reverse.dropWhile isSpace).reverse

def eraseZeros : ℕ → Bytes → Option Bytes
  | 0, s => some s
  | n + 1, c :: s => if c = zeroDigit then eraseZeros n s else none
  | _ + 1, [] => none

def parseAmount (decimalPoint : ℕ) (strAmount : Bytes) : Option UInt64 :=
  let s := trim strAmount
  let whole := s.takeWhile (· ≠ dot)
  let digits : Option (Bytes × ℕ) :=
    match s.dropWhile (· ≠ dot) with
    | [] => some (s, 0)
    | _ :: fraction =>
      (eraseZeros (fraction.length - decimalPoint) fraction.reverse).map fun f =>
        (whole ++ f.reverse, f.length)
  match digits with
  | none => none
  | some (s, fractionSize) =>
    if s = [] then none
    else
      (getXtypeFromString 64 (s ++ List.replicate (decimalPoint - fractionSize) zeroDigit)).map UInt64.ofNat

theorem trim_eq_self {s : Bytes} (h : ∀ c ∈ s, isSpace c = false) : trim s = s := by
  have hdrop : ∀ l : Bytes, (∀ c ∈ l, isSpace c = false) → l.dropWhile isSpace = l := fun l hl => by
    cases l with
    | nil => rfl
    | cons c l => rw [List.dropWhile_cons_of_neg (by simp [hl c (by simp)])]
  rw [trim, hdrop s h, hdrop s.reverse fun c hc => h c (List.mem_reverse.mp hc), List.reverse_reverse]

theorem decimalValue_replicate (k : ℕ) (s : Bytes) :
    decimalValue (List.replicate k zeroDigit ++ s) = decimalValue s := by
  induction k with
  | zero => rfl
  | succ k ih =>
    rw [List.replicate_succ, List.cons_append, decimalValue, List.foldl_cons]
    exact ih

theorem isDigit_of_mem_padded {k n : ℕ} {c : UInt8} (h : c ∈ List.replicate k zeroDigit ++ decimal n) :
    isDigit c = true := by
  rcases List.mem_append.mp h with h | h
  · rw [(List.mem_replicate.mp h).2]
    rfl
  · exact isDigit_of_mem_decimal h

theorem isSpace_of_isDigit {c : UInt8} (h : isDigit c = true) : isSpace c = false := by
  have hall : ∀ i : Fin 256, isDigit (UInt8.ofNat i) = true → isSpace (UInt8.ofNat i) = false := by
    decide +kernel
  have hc := hall ⟨c.toNat, c.toNat_lt⟩
  rw [UInt8.ofNat_toNat] at hc
  exact hc h

theorem takeWhile_dropWhile_dot {x : Bytes} (hx : ∀ c ∈ x, isDigit c = true) (y : Bytes) :
    (x ++ dot :: y).takeWhile (· ≠ dot) = x ∧ (x ++ dot :: y).dropWhile (· ≠ dot) = dot :: y := by
  have hne : ∀ c ∈ x, decide (c ≠ dot) = true := fun c hc => by
    refine decide_eq_true ?_
    rintro rfl
    exact absurd (hx _ hc) (by decide)
  rw [List.takeWhile_append_of_pos hne, List.dropWhile_append_of_pos hne]
  simp

theorem parseAmount_printMoney (decimalPoint : ℕ) (amount : UInt64) :
    parseAmount decimalPoint (printMoney decimalPoint amount) = some amount := by
  rw [printMoney, insertMoneyDecimalPoint]
  set s := List.replicate (decimalPoint + 1 - (decimal amount.toNat).length) zeroDigit ++
    decimal amount.toNat with hs
  have hdigits : ∀ c ∈ s, isDigit c = true := fun c hc => isDigit_of_mem_padded hc
  have hlen : decimalPoint < s.length := by
    rw [hs, List.length_append, List.length_replicate]
    omega
  have hne : s ≠ [] := fun h => by rw [h] at hlen; simp at hlen
  have hvalue : decimalValue s = amount.toNat := by rw [hs, decimalValue_replicate, decimalValue_decimal]
  have hread : (getXtypeFromString 64 s).map UInt64.ofNat = some amount := by
    rw [getXtypeFromString, if_pos ⟨hne, List.all_eq_true.mpr hdigits, hvalue ▸ amount.toNat_lt⟩, hvalue]
    simp
  split_ifs with hpoint
  · set x := s.take (s.length - decimalPoint)
    set y := s.drop (s.length - decimalPoint) with hy
    have hxy : x ++ y = s := List.take_append_drop _ _
    have hyl : y.length = decimalPoint := by rw [hy, List.length_drop]; omega
    have hx : ∀ c ∈ x, isDigit c = true := fun c hc => hdigits c (List.mem_of_mem_take hc)
    have hspace : ∀ c ∈ x ++ dot :: y, isSpace c = false := by
      intro c hc
      rcases List.mem_append.mp hc with hc | hc
      · exact isSpace_of_isDigit (hx c hc)
      · rcases List.mem_cons.mp hc with rfl | hc
        · rfl
        · exact isSpace_of_isDigit (hdigits c (List.mem_of_mem_drop hc))
    obtain ⟨htake, hdrop⟩ := takeWhile_dropWhile_dot hx y
    rw [parseAmount, trim_eq_self hspace, htake, hdrop]
    simp only [hyl, Nat.sub_self, eraseZeros, Option.map_some, List.reverse_reverse, List.length_reverse,
      List.replicate_zero, List.append_nil, hxy]
    rw [if_neg hne, hread]
  · have hzero : decimalPoint = 0 := Nat.eq_zero_of_not_pos hpoint
    have hdrop : s.dropWhile (· ≠ dot) = [] := by
      refine List.dropWhile_eq_nil_iff.mpr fun c hc => decide_eq_true ?_
      rintro rfl
      exact absurd (hdigits _ hc) (by decide)
    rw [parseAmount, trim_eq_self fun c hc => isSpace_of_isDigit (hdigits c hc), hdrop]
    simp only [hzero, Nat.sub_self, List.replicate_zero, List.append_nil]
    rw [if_neg hne, hread]

end Velkavo.Cryptonote
