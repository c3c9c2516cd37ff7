import Velkavo.Core.CoinSupply
import Velkavo.Cryptonote.TxExtra
import Velkavo.WordArith.Halves
import Mathlib.Algebra.Order.BigOperators.Group.List

/-! The outputs of a miner transaction carry the reward and the fees, no more and no less. -/

namespace Velkavo.Core

open Cryptonote ByteCodec

inductive Emitted
  | chunk (amount : UInt64)
  | dust (amount : UInt64)
  deriving DecidableEq, Repr

namespace Emitted

def amount : Emitted → UInt64
  | chunk a => a
  | dust a => a

end Emitted

def emitDigits (dustThreshold : UInt64) : ℕ → UInt64 → UInt64 → UInt64 → Bool → List Emitted
  | 0, _, _, dust, isDustHandled => if !isDustHandled && dust ≠ 0 then [.dust dust] else []
  | n + 1, amount, order, dust, isDustHandled =>
    if amount = 0 then if !isDustHandled && dust ≠ 0 then [.dust dust] else []
    else
      let chunk := amount % 10 * order
      if dust + chunk ≤ dustThreshold then
        emitDigits dustThreshold n (amount / 10) (order * 10) (dust + chunk) isDustHandled
      else
        let handled := !isDustHandled && dust ≠ 0
        (if handled then [.dust dust] else []) ++ (if chunk ≠ 0 then [.chunk chunk] else []) ++
          emitDigits dustThreshold n (amount / 10) (order * 10) dust (isDustHandled || handled)

def emitAmount (amount dustThreshold : UInt64) : List Emitted := emitDigits dustThreshold 20 amount 1 0 false

theorem decomposeDigits_eq (dustThreshold : UInt64) (n : ℕ) (amount order dust : UInt64) (isDustHandled : Bool) :
    decomposeDigits dustThreshold n amount order dust isDustHandled =
      (emitDigits dustThreshold n amount order dust isDustHandled).map Emitted.amount := by
  induction n generalizing amount order dust isDustHandled with
  | zero =>
    rw [decomposeDigits, emitDigits]
    split_ifs <;> rfl
  | succ n ih =>
    rw [decomposeDigits, emitDigits]
    dsimp only
    rw [ih, ih]
    split_ifs <;> simp [Emitted.amount]

section

variable {dustThreshold amount order dust : UInt64} {n : ℕ} {isDustHandled : Bool}

theorem emitDigits_done (hamount : amount = 0 ∨ n = 0) :
    emitDigits dustThreshold n amount order dust isDustHandled =
      if !isDustHandled && dust ≠ 0 then [.dust dust] else [] := by
  cases n with
  | zero => rfl
  | succ n =>
    rcases hamount with rfl | hn
    · rw [emitDigits, if_pos rfl]
    · exact absurd hn (Nat.succ_ne_zero n)

theorem emitDigits_dust (hamount : amount ≠ 0) (hle : dust + amount % 10 * order ≤ dustThreshold) :
    emitDigits dustThreshold (n + 1) amount order dust isDustHandled =
      emitDigits dustThreshold n (amount / 10) (order * 10) (dust + amount % 10 * order) isDustHandled := by
  rw [emitDigits, if_neg hamount]
  exact if_pos hle

theorem emitDigits_chunk (hamount : amount ≠ 0) (hlt : ¬dust + amount % 10 * order ≤ dustThreshold)
    (hchunk : amount % 10 * order ≠ 0) :
    emitDigits dustThreshold (n + 1) amount order dust isDustHandled =
      (if !isDustHandled && dust ≠ 0 then [.dust dust] else []) ++ .chunk (amount % 10 * order) ::
        emitDigits dustThreshold n (amount / 10) (order * 10) dust (isDustHandled || (!isDustHandled && dust ≠ 0)) := by
  rw [emitDigits, if_neg hamount]
  dsimp only
  rw [if_neg hlt, if_pos hchunk, List.append_assoc]
  rfl

end

structure AtDigit (k : ℕ) (amount order dust : UInt64) : Prop where
  order_eq : amount ≠ 0 → order.toNat = 10 ^ k
  fits : dust.toNat + amount.toNat * 10 ^ k < 2 ^ 64
  dust_lt : dust.toNat < 10 ^ k

theorem toNat_ne_zero {a : UInt64} : a ≠ 0 ↔ a.toNat ≠ 0 := by
  rw [ne_eq, ← UInt64.toNat_inj]
  rfl

theorem mul_pow_split (a k : ℕ) : a * 10 ^ k = a % 10 * 10 ^ k + a / 10 * 10 ^ (k + 1) := by
  conv_lhs => rw [← Nat.mod_add_div a 10]
  rw [pow_succ]
  ring

section

variable {k : ℕ} {amount order dust : UInt64} (h : AtDigit k amount order dust) (hamount : amount ≠ 0)

include h hamount

theorem AtDigit.chunk_eq : (amount % 10 * order).toNat = amount.toNat % 10 * 10 ^ k := by
  have hfits := h.fits
  rw [mul_pow_split] at hfits
  have horder := h.order_eq hamount
  rw [WordArith.toNat_mul_of_lt, UInt64.toNat_mod, horder]
  · rfl
  · rw [UInt64.toNat_mod, horder]
    change amount.toNat % 10 * 10 ^ k < _
    omega

theorem AtDigit.dust_add : (dust + amount % 10 * order).toNat = dust.toNat + amount.toNat % 10 * 10 ^ k := by
  have hfits := h.fits
  rw [mul_pow_split] at hfits
  rw [WordArith.toNat_add_of_lt, h.chunk_eq hamount]
  rw [h.chunk_eq hamount]
  omega

theorem AtDigit.next {dust' : UInt64} (hdust : dust'.toNat ≤ dust.toNat + amount.toNat % 10 * 10 ^ k) :
    AtDigit (k + 1) (amount / 10) (order * 10) dust' := by
  have hfits := h.fits
  rw [mul_pow_split] at hfits
  have hdiv : (amount / 10).toNat = amount.toNat / 10 := UInt64.toNat_div ..
  have hdigit : amount.toNat % 10 * 10 ^ k ≤ 9 * 10 ^ k := Nat.mul_le_mul_right _ (by omega)
  have hlt := h.dust_lt
  have hpow : 10 ^ (k + 1) = 10 * 10 ^ k := Nat.pow_succ'
  refine ⟨fun hne => ?_, ?_, by omega⟩
  · have hpos : 1 ≤ amount.toNat / 10 := by
      rw [toNat_ne_zero, hdiv] at hne
      omega
    have hle : 10 ^ (k + 1) ≤ amount.toNat / 10 * 10 ^ (k + 1) := Nat.le_mul_of_pos_left _ hpos
    have horder := h.order_eq hamount
    have hten : (10 : UInt64).toNat = 10 := rfl
    rw [WordArith.toNat_mul_of_lt, horder, hten, pow_succ]
    rw [horder, hten]
    omega
  · rw [hdiv]
    omega

end

structure Digits (k total : ℕ) (digits : List (ℕ × ℕ)) : Prop where
  digit : ∀ x ∈ digits, 1 ≤ x.1 ∧ x.1 ≤ 9 ∧ k ≤ x.2
  ascending : (digits.map Prod.snd).Pairwise (· < ·)
  sum_eq : (digits.map fun x => x.1 * 10 ^ x.2).sum = total

theorem Digits.nil (k : ℕ) : Digits k 0 [] := ⟨List.forall_mem_nil _, .nil, rfl⟩

variable {digits : List (ℕ × ℕ)} {total : ℕ} {blockReward : UInt64} {version : UInt8}

theorem Digits.mono {j k : ℕ} (h : Digits k total digits) (hle : j ≤ k) :
    Digits j total digits :=
  ⟨fun x hx => ⟨(h.digit x hx).1, (h.digit x hx).2.1, hle.trans (h.digit x hx).2.2⟩, h.ascending, h.sum_eq⟩

theorem Digits.cons {k total d : ℕ} {digits : List (ℕ × ℕ)} (h : Digits (k + 1) total digits) (hpos : 1 ≤ d) (hd : d ≤ 9) :
    Digits k (d * 10 ^ k + total) ((d, k) :: digits) := by
  refine ⟨List.forall_mem_cons.mpr ⟨⟨hpos, hd, le_rfl⟩, (h.mono (Nat.le_succ k)).digit⟩, ?_, ?_⟩
  · rw [List.map_cons, List.pairwise_cons]
    refine ⟨?_, h.ascending⟩
    intro place hplace
    obtain ⟨x, hx, rfl⟩ := List.mem_map.mp hplace
    exact (h.digit x hx).2.2
  · rw [List.map_cons, List.sum_cons, h.sum_eq]

def chunkOf (x : ℕ × ℕ) : Emitted := .chunk (UInt64.ofNat (x.1 * 10 ^ x.2))

theorem chunk_eq_chunkOf {chunk : UInt64} {d k : ℕ} (h : chunk.toNat = d * 10 ^ k) : Emitted.chunk chunk = chunkOf (d, k) := by
  rw [chunkOf, ← h, UInt64.ofNat_toNat]

theorem exists_digits {dustThreshold : UInt64} {n k : ℕ} {amount order dust : UInt64} {isDustHandled : Bool}
    (hn : amount.toNat < 10 ^ n) (h : AtDigit k amount order dust) (hdust : dust ≤ dustThreshold)
    (hthreshold : dustThreshold.toNat < 10 ^ k) (hhandled : isDustHandled = true ∨ dust = 0) :
    ∃ digits, emitDigits dustThreshold n amount order dust isDustHandled = digits.map chunkOf ∧
      Digits k (amount.toNat * 10 ^ k) digits := by
  have hdone : ¬((!isDustHandled && decide (dust ≠ 0)) = true) := by
    rcases hhandled with rfl | rfl <;> simp
  induction n generalizing k amount order isDustHandled with
  | zero =>
    have hzero : amount.toNat = 0 := by omega
    refine ⟨[], ?_, ?_⟩
    · rw [emitDigits_done (.inr rfl), if_neg hdone]
      rfl
    · rw [hzero, Nat.zero_mul]
      exact .nil k
  | succ n ih =>
    by_cases hamount : amount = 0
    · refine ⟨[], ?_, ?_⟩
      · rw [emitDigits_done (.inl hamount), if_neg hdone]
        rfl
      · rw [hamount, UInt64.toNat_zero, Nat.zero_mul]
        exact .nil k
    have hchunk := h.chunk_eq hamount
    have hdiv : (amount / 10).toNat = amount.toNat / 10 := UInt64.toNat_div ..
    have hnext : (amount / 10).toNat < 10 ^ n := by
      rw [hdiv]
      rw [pow_succ] at hn
      omega
    have hpow : dustThreshold.toNat < 10 ^ (k + 1) :=
      hthreshold.trans (Nat.pow_lt_pow_right (by decide) (Nat.lt_succ_self k))
    have hat := h.next hamount (Nat.le_add_right dust.toNat _)
    by_cases hzero : amount.toNat % 10 = 0
    · -- a digit of zero changes nothing
      have hchunkZero : amount % 10 * order = 0 := by
        rw [← UInt64.toNat_inj, hchunk, hzero, Nat.zero_mul]
        rfl
      have hsame : dust + amount % 10 * order = dust := by rw [hchunkZero, UInt64.add_zero]
      obtain ⟨digits, hemit, hdigits⟩ := ih hnext hat hpow hhandled hdone
      refine ⟨digits, ?_, ?_⟩
      · rw [emitDigits_dust hamount (by rwa [hsame]), hsame, hemit]
      · rw [mul_pow_split, hzero, Nat.zero_mul, Nat.zero_add, ← hdiv]
        exact hdigits.mono (Nat.le_succ k)
    · have hbig : 10 ^ k ≤ amount.toNat % 10 * 10 ^ k := Nat.le_mul_of_pos_left _ (Nat.pos_of_ne_zero hzero)
      have hlt : ¬dust + amount % 10 * order ≤ dustThreshold := by
        rw [UInt64.le_iff_toNat_le, h.dust_add hamount]
        omega
      have hne : amount % 10 * order ≠ 0 := by
        rw [toNat_ne_zero, hchunk]
        have := Nat.pow_pos (n := k) (show 0 < 10 by decide)
        omega
      have hflag : (isDustHandled || (!isDustHandled && decide (dust ≠ 0))) = isDustHandled := by
        rw [Bool.not_eq_true] at hdone
        rw [hdone, Bool.or_false]
      obtain ⟨digits, hemit, hdigits⟩ := ih hnext hat hpow hhandled hdone
      refine ⟨(amount.toNat % 10, k) :: digits, ?_, ?_⟩
      · rw [emitDigits_chunk hamount hlt hne, if_neg hdone, hflag, hemit, chunk_eq_chunkOf hchunk]
        rfl
      · rw [mul_pow_split, ← hdiv]
        exact hdigits.cons (Nat.pos_of_ne_zero hzero) (by omega)

structure Decomposed (dustThreshold : UInt64) (total : ℕ) (dusts : List UInt64) (digits : List (ℕ × ℕ)) : Prop where
  oneDust : dusts.length ≤ 1
  dust : ∀ a ∈ dusts, a ≠ 0 ∧ a ≤ dustThreshold
  digits : ∃ rest, Digits 0 rest digits ∧ (dusts.map UInt64.toNat).sum + rest = total

def dustPart (dust : UInt64) : List UInt64 := if dust ≠ 0 then [dust] else []

theorem emitted_dustPart (dust : UInt64) :
    (if !false && dust ≠ 0 then [Emitted.dust dust] else []) = (dustPart dust).map .dust := by
  rw [dustPart]
  by_cases h : dust = 0 <;> simp [h]

theorem decomposed_of_digits {dustThreshold dust : UInt64} {k rest : ℕ} (hdust : dust ≤ dustThreshold)
    (h : Digits k rest digits) : Decomposed dustThreshold (dust.toNat + rest) (dustPart dust) digits := by
  have hdigits := h.mono (Nat.zero_le k)
  rw [dustPart]
  split_ifs with hne
  · exact ⟨le_rfl, List.forall_mem_singleton.mpr ⟨hne, hdust⟩, rest, hdigits, rfl⟩
  · rw [not_not] at hne
    subst hne
    exact ⟨Nat.zero_le 1, List.forall_mem_nil _, rest, hdigits, rfl⟩

theorem exists_decomposed {dustThreshold : UInt64} {n k : ℕ} {amount order dust : UInt64} (hn : amount.toNat < 10 ^ n)
    (h : AtDigit k amount order dust) (hdust : dust ≤ dustThreshold) :
    ∃ dusts digits, emitDigits dustThreshold n amount order dust false = dusts.map .dust ++ digits.map chunkOf ∧
      Decomposed dustThreshold (dust.toNat + amount.toNat * 10 ^ k) dusts digits := by
  induction n generalizing k amount order dust with
  | zero =>
    have hzero : amount.toNat = 0 := by omega
    refine ⟨dustPart dust, [], ?_, ?_⟩
    · rw [emitDigits_done (.inr rfl), emitted_dustPart, List.map_nil, List.append_nil]
    · rw [hzero, Nat.zero_mul]
      exact decomposed_of_digits hdust (.nil k)
  | succ n ih =>
    by_cases hamount : amount = 0
    · refine ⟨dustPart dust, [], ?_, ?_⟩
      · rw [emitDigits_done (.inl hamount), emitted_dustPart, List.map_nil, List.append_nil]
      · rw [hamount, UInt64.toNat_zero, Nat.zero_mul]
        exact decomposed_of_digits hdust (.nil k)
    have hdiv : (amount / 10).toNat = amount.toNat / 10 := UInt64.toNat_div ..
    have hnext : (amount / 10).toNat < 10 ^ n := by
      rw [hdiv]
      rw [pow_succ] at hn
      omega
    have hadd := h.dust_add hamount
    by_cases hle : dust + amount % 10 * order ≤ dustThreshold
    · obtain ⟨dusts, digits, hemit, hsplit⟩ := ih hnext (h.next hamount hadd.le) hle
      refine ⟨dusts, digits, ?_, ?_⟩
      · rw [emitDigits_dust hamount hle, hemit]
      · rwa [hadd, hdiv, Nat.add_assoc, ← mul_pow_split] at hsplit
    · have hchunk := h.chunk_eq hamount
      have hover : dustThreshold.toNat < dust.toNat + amount.toNat % 10 * 10 ^ k := by
        rwa [UInt64.le_iff_toNat_le, hadd, Nat.not_le] at hle
      have hdigit : amount.toNat % 10 ≠ 0 := by
        intro hzero
        rw [hzero, Nat.zero_mul, Nat.add_zero] at hover
        exact absurd (UInt64.le_iff_toNat_le.mp hdust) (Nat.not_le.mpr hover)
      have hne : amount % 10 * order ≠ 0 := by
        rw [toNat_ne_zero, hchunk]
        exact Nat.mul_ne_zero hdigit (Nat.pow_pos (by decide)).ne'
      have hat := h.next hamount (Nat.le_add_right dust.toNat _)
      have hthreshold : dustThreshold.toNat < 10 ^ (k + 1) := by
        have hlt := (h.next hamount hadd.le).dust_lt
        rw [hadd] at hlt
        exact hover.trans hlt
      have hhandled : (false || (!false && decide (dust ≠ 0))) = true ∨ dust = 0 := by
        by_cases hzero : dust = 0 <;> simp [hzero]
      obtain ⟨digits, hemit, hdigits⟩ := exists_digits hnext hat hdust hthreshold hhandled
      refine ⟨dustPart dust, (amount.toNat % 10, k) :: digits, ?_, ?_⟩
      · rw [emitDigits_chunk hamount hle hne, emitted_dustPart, hemit, chunk_eq_chunkOf hchunk]
        rfl
      · rw [mul_pow_split, ← hdiv]
        exact decomposed_of_digits hdust (hdigits.cons (Nat.pos_of_ne_zero hdigit) (by omega))

theorem exists_decomposed_emitAmount (amount dustThreshold : UInt64) :
    ∃ dusts digits, emitAmount amount dustThreshold = dusts.map .dust ++ digits.map chunkOf ∧
      Decomposed dustThreshold amount.toNat dusts digits := by
  have hlt := amount.toNat_lt
  have hn : amount.toNat < 10 ^ 20 := hlt.trans (by decide)
  have hat : AtDigit 0 amount 1 0 := by
    refine ⟨fun _ => rfl, ?_, by decide⟩
    rw [UInt64.toNat_zero, Nat.zero_add, Nat.pow_zero, Nat.mul_one]
    exact hlt
  have hdust : (0 : UInt64) ≤ dustThreshold := UInt64.le_iff_toNat_le.mpr (Nat.zero_le _)
  obtain ⟨dusts, digits, hemit, hsplit⟩ := exists_decomposed hn hat hdust
  refine ⟨dusts, digits, hemit, ?_⟩
  rwa [UInt64.toNat_zero, Nat.zero_add, Nat.pow_zero, Nat.mul_one] at hsplit

structure Pays (total : ℕ) (amounts : List UInt64) : Prop where
  pos : ∀ a ∈ amounts, 0 < a.toNat
  sum_eq : (amounts.map UInt64.toNat).sum = total

theorem pays_append {s t : ℕ} {l l' : List UInt64} (h : Pays s l) (h' : Pays t l') : Pays (s + t) (l ++ l') := by
  refine ⟨?_, by rw [List.map_append, List.sum_append, h.sum_eq, h'.sum_eq]⟩
  intro a ha
  rcases List.mem_append.mp ha with ha | ha
  · exact h.pos a ha
  · exact h'.pos a ha

theorem Digits.pays {k : ℕ} (h : Digits k total digits) (htotal : total < 2 ^ 64) :
    Pays total ((digits.map chunkOf).map Emitted.amount) := by
  have htoNat : ∀ x ∈ digits, (UInt64.ofNat (x.1 * 10 ^ x.2)).toNat = x.1 * 10 ^ x.2 := by
    intro x hx
    have hle : x.1 * 10 ^ x.2 ≤ total := by
      rw [← h.sum_eq]
      exact List.single_le_sum (fun _ _ => Nat.zero_le _) _ (List.mem_map.mpr ⟨x, hx, rfl⟩)
    exact UInt64.toNat_ofNat_of_lt' (hle.trans_lt htotal)
  refine ⟨?_, ?_⟩
  · intro a ha
    rw [List.map_map] at ha
    obtain ⟨x, hx, rfl⟩ := List.mem_map.mp ha
    change 0 < (UInt64.ofNat (x.1 * 10 ^ x.2)).toNat
    rw [htoNat x hx]
    exact Nat.mul_pos (h.digit x hx).1 (Nat.pow_pos (by decide))
  · rw [← h.sum_eq, List.map_map, List.map_map]
    exact congrArg List.sum (List.map_congr_left htoNat)

theorem pays_decompose (amount dustThreshold : UInt64) : Pays amount.toNat (decomposeAmountIntoDigits amount dustThreshold) := by
  obtain ⟨dusts, digits, hemit, hsplit⟩ := exists_decomposed_emitAmount amount dustThreshold
  obtain ⟨rest, hdigits, hsum⟩ := hsplit.digits
  have hlt := amount.toNat_lt
  have hdusts : Pays (dusts.map UInt64.toNat).sum dusts :=
    ⟨fun a ha => Nat.pos_of_ne_zero (toNat_ne_zero.mp (hsplit.dust a ha).1), rfl⟩
  have hamounts : (dusts.map Emitted.dust).map Emitted.amount = dusts := by
    rw [List.map_map]
    exact List.map_id dusts
  rw [decomposeAmountIntoDigits, decomposeDigits_eq, ← emitAmount, hemit, List.map_append, hamounts, ← hsum]
  exact pays_append hdusts (hdigits.pays (by omega))

theorem Pays.mergeFirst {amounts : List UInt64} (h : Pays total amounts) (htotal : total < 2 ^ 64) :
    Pays total (mergeFirst amounts) := by
  rcases amounts with _ | ⟨a, _ | ⟨b, rest⟩⟩
  · exact h
  · exact h
  · have hsum := h.sum_eq
    have ha := h.pos a List.mem_cons_self
    rw [List.map_cons, List.map_cons, List.sum_cons, List.sum_cons] at hsum
    have hadd : (b + a).toNat = b.toNat + a.toNat := WordArith.toNat_add_of_lt (by omega)
    refine ⟨List.forall_mem_cons.mpr ⟨by omega, fun c hc => h.pos c ?_⟩, ?_⟩
    · exact List.mem_cons_of_mem _ (List.mem_cons_of_mem _ hc)
    · change ((b + a).toNat :: rest.map UInt64.toNat).sum = total
      rw [List.sum_cons, hadd]
      omega

theorem Pays.mergeOuts {amounts : List UInt64} (h : Pays total amounts) (htotal : total < 2 ^ 64) (maxOuts : ℕ) :
    Pays total (mergeOuts maxOuts amounts) :=
  Function.Iterate.rec (Pays total) h (fun _ hl => hl.mergeFirst htotal) _

theorem length_mergeOuts {maxOuts : ℕ} (h : 1 ≤ maxOuts) (amounts : List UInt64) :
    (mergeOuts maxOuts amounts).length ≤ maxOuts :=
  (length_iterate_mergeFirst _ _).trans (max_le h (by omega))

def OutsSuffice (blockReward height : UInt64) (maxOuts : ℕ) (version : UInt8) : Prop :=
  height = 0 ∨ version ≥ 4 ∨ (decomposeAmountIntoDigits blockReward 0).length ≤ maxOuts

theorem exists_minerOutAmounts {height : UInt64} {maxOuts : ℕ} (hversion : 2 ≤ version)
    (houts : 1 ≤ maxOuts) (hsuffice : OutsSuffice blockReward height maxOuts version) :
    ∃ amounts, minerOutAmounts blockReward height maxOuts version = some amounts ∧ amounts.length ≤ maxOuts ∧
      Pays blockReward.toNat amounts := by
  have hpays := pays_decompose blockReward 0
  rw [minerOutAmounts, if_pos hversion, if_neg (Nat.not_lt.mpr houts)]
  by_cases hmerge : height = 0 ∨ version ≥ 4
  · rw [if_pos hmerge]
    exact ⟨_, rfl, length_mergeOuts houts _, hpays.mergeOuts blockReward.toNat_lt maxOuts⟩
  · have hfew : (decomposeAmountIntoDigits blockReward 0).length ≤ maxOuts := by
      rcases hsuffice with hheight | hfork | hfew
      · exact absurd (.inl hheight) hmerge
      · exact absurd (.inr hfork) hmerge
      · exact hfew
    rw [if_neg hmerge, if_pos hfew]
    exact ⟨_, rfl, hfew, hpays⟩

def minerFunctions (txPublicKey : ℕ → PublicKey) (deriveOutput : ℕ → AccountPublicAddress → ℕ → Option (PublicKey × ViewTag)) :
    MinerFunctions :=
  ⟨txPublicKey, fun txExtra => Cryptonote.sortTxExtra txExtra false, deriveOutput⟩

section

variable (txPublicKey : ℕ → PublicKey) {deriveOutput : ℕ → AccountPublicAddress → ℕ → Option (PublicKey × ViewTag)}
  {x : MinerTxArgs} {call : ℕ}

theorem exists_minerExtra (deriveOutput : ℕ → AccountPublicAddress → ℕ → Option (PublicKey × ViewTag)) (call : ℕ)
    (hnonce : x.extraNonce.length ≤ txExtraNonceMaxCount) :
    ∃ extra, minerExtra (minerFunctions txPublicKey deriveOutput) x call = some extra := by
  have hsort : ∀ {fields : List TxExtraField}, (∀ f ∈ fields, Plain f) →
      ∃ extra, Cryptonote.sortTxExtra (fields.flatMap TxExtraField.bytes) false = some extra := by
    intro fields hplain
    have haccepts := accepts_plain hplain .accept []
    rw [List.append_nil] at haccepts
    exact ⟨_, sortTxExtra_eq haccepts false⟩
  have hkey := plain_pubKey (txPublicKey call)
  rw [minerExtra]
  split_ifs with hempty
  · obtain ⟨extra, hextra⟩ := hsort (List.forall_mem_singleton.mpr hkey)
    refine ⟨extra, ?_⟩
    rw [Option.bind_some, ← hextra, List.flatMap_singleton]
    rfl
  · obtain ⟨extra, hextra⟩ := hsort (List.forall_mem_cons.mpr ⟨hkey, List.forall_mem_singleton.mpr (plain_nonce hnonce)⟩)
    refine ⟨extra, ?_⟩
    rw [addExtraNonceToTxExtra, if_pos hnonce, Option.bind_some, ← hextra, List.flatMap_cons, List.flatMap_singleton,
      bytes_nonce]
    rfl

theorem exists_mapM {α β : Type} {f : α → Option β} (hf : ∀ a, (f a).isSome) (l : List α) : ∃ l', l.mapM f = some l' := by
  induction l with
  | nil => exact ⟨[], rfl⟩
  | cons a l ih =>
    obtain ⟨b, hb⟩ := Option.isSome_iff_exists.mp (hf a)
    obtain ⟨l', hl⟩ := ih
    refine ⟨b :: l', ?_⟩
    rw [List.mapM_cons, hb, hl]
    rfl

theorem amounts_minerOuts {m : MinerFunctions} {amounts : List UInt64} {vout : List TxOut}
    (h : minerOuts m x call amounts = some vout) : vout.map TxOut.amount = amounts := by
  have hf : ∀ (a : UInt64 × ℕ) (out : TxOut),
      ((m.deriveOutput call x.minerAddress a.2).map fun outKey => setTxOut a.1 outKey (x.hardForkVersion ≥ hfVersionViewTags)) =
        some out → out.amount = a.1 := by
    intro a out hout
    obtain ⟨outKey, -, rfl⟩ := Option.map_eq_some_iff.mp hout
    rfl
  rw [map_of_mapM hf h, List.zipIdx_map_fst]

theorem exists_constructMinerTx {weight reward : UInt64} (hnonce : x.extraNonce.length ≤ txExtraNonceMaxCount)
    (hderive : ∀ no, (deriveOutput call x.minerAddress no).isSome) (houts : 1 ≤ x.maxOuts) (hversion : 2 ≤ x.hardForkVersion)
    (hreward : getBlockReward x.medianWeight weight x.alreadyGeneratedCoins x.hardForkVersion = some reward)
    (hsuffice : OutsSuffice (clampReward (reward + x.fee) x.hardForkVersion) x.height x.maxOuts x.hardForkVersion) :
    ∃ tx, constructMinerTx (minerFunctions txPublicKey deriveOutput) x call weight = some tx ∧ tx.vout.length ≤ x.maxOuts ∧
      Pays (clampReward (reward + x.fee) x.hardForkVersion).toNat (tx.vout.map TxOut.amount) := by
  obtain ⟨extra, hextra⟩ := exists_minerExtra txPublicKey deriveOutput call hnonce
  obtain ⟨amounts, hamounts, hlength, hpays⟩ := exists_minerOutAmounts hversion houts hsuffice
  have hsum : amounts.foldl (· + ·) 0 = clampReward (reward + x.fee) x.hardForkVersion := by
    rw [← UInt64.toNat_inj, foldl_add_toNat, UInt64.toNat_zero, Nat.zero_add, hpays.sum_eq]
    rw [UInt64.toNat_zero, Nat.zero_add, hpays.sum_eq]
    exact UInt64.toNat_lt _
  obtain ⟨vout, hvout⟩ : ∃ vout, minerOuts (minerFunctions txPublicKey deriveOutput) x call amounts = some vout := by
    refine exists_mapM (fun a => ?_) _
    rw [Option.isSome_map]
    exact hderive a.2
  have hmap := amounts_minerOuts hvout
  have htx : ∃ tx, constructMinerTx (minerFunctions txPublicKey deriveOutput) x call weight = some tx ∧ tx.vout = vout := by
    rw [constructMinerTx]
    simp only [hextra, hreward, hamounts, hvout, hsum, guard, Option.bind_eq_bind, Option.bind_some]
    exact ⟨_, rfl, rfl⟩
  obtain ⟨tx, hconstruct, rfl⟩ := htx
  refine ⟨tx, hconstruct, ?_, ?_⟩
  · rw [← List.length_map (f := TxOut.amount), hmap]
    exact hlength
  · rw [hmap]
    exact hpays

end

theorem clampReward_of_ge (h : 4 ≤ version) :
    clampReward blockReward version = blockReward :=
  if_neg fun hlow => absurd h (UInt8.not_le.mpr hlow.2)

theorem toNat_clampReward (hlow : 2 ≤ version) (hhigh : version < 4) :
    (clampReward blockReward version).toNat =
      blockReward.toNat / baseRewardClampThreshold.toNat * baseRewardClampThreshold.toNat := by
  have hclamp : baseRewardClampThreshold.toNat = 100000000 := rfl
  have hmod : (blockReward % baseRewardClampThreshold).toNat = blockReward.toNat % 100000000 := UInt64.toNat_mod ..
  have hle : blockReward % baseRewardClampThreshold ≤ blockReward := by
    rw [UInt64.le_iff_toNat_le, hmod]
    exact Nat.mod_le _ _
  rw [clampReward, if_pos ⟨hlow, hhigh⟩, UInt64.toNat_sub_of_le _ _ hle, hmod, hclamp]
  omega

theorem miner_outputs (txPublicKey : ℕ → PublicKey)
    (deriveOutput : ℕ → AccountPublicAddress → ℕ → Option (PublicKey × ViewTag)) :
    (∀ amount dustThreshold,
      decomposeAmountIntoDigits amount dustThreshold = (emitAmount amount dustThreshold).map Emitted.amount ∧
      ∃ dusts digits, emitAmount amount dustThreshold = dusts.map .dust ++ digits.map chunkOf ∧
        Decomposed dustThreshold amount.toNat dusts digits) ∧
    ∀ (x : MinerTxArgs) (call : ℕ) (weight reward : UInt64), 1 ≤ x.maxOuts →
      getBlockReward x.medianWeight weight x.alreadyGeneratedCoins x.hardForkVersion = some reward →
      reward.toNat + x.fee.toNat < 2 ^ 64 → x.extraNonce.length ≤ txExtraNonceMaxCount →
      (∀ no, (deriveOutput call x.minerAddress no).isSome) →
      (4 ≤ x.hardForkVersion → ∃ tx, constructMinerTx (minerFunctions txPublicKey deriveOutput) x call weight = some tx ∧
        tx.vout.length ≤ x.maxOuts ∧ Pays (reward.toNat + x.fee.toNat) (tx.vout.map TxOut.amount)) ∧
      (2 ≤ x.hardForkVersion → x.hardForkVersion < 4 →
        OutsSuffice (clampReward (reward + x.fee) x.hardForkVersion) x.height x.maxOuts x.hardForkVersion →
        ∃ tx, constructMinerTx (minerFunctions txPublicKey deriveOutput) x call weight = some tx ∧
          tx.vout.length ≤ x.maxOuts ∧
          Pays ((reward.toNat + x.fee.toNat) / baseRewardClampThreshold.toNat * baseRewardClampThreshold.toNat)
            (tx.vout.map TxOut.amount)) := by
  refine ⟨fun amount dustThreshold => ⟨decomposeDigits_eq .., exists_decomposed_emitAmount amount dustThreshold⟩, ?_⟩
  intro x call weight reward houts hreward hfits hnonce hderive
  have hadd := WordArith.toNat_add_of_lt hfits
  refine ⟨fun hversion => ?_, fun hlow hhigh hsuffice => ?_⟩
  · have htx := exists_constructMinerTx txPublicKey hnonce hderive houts (UInt8.le_trans (by decide) hversion) hreward
      (.inr (.inl hversion))
    rwa [clampReward_of_ge hversion, hadd] at htx
  · have htx := exists_constructMinerTx txPublicKey hnonce hderive houts hlow hreward hsuffice
    rwa [toNat_clampReward hlow hhigh, hadd] at htx

def firstBlockArgs (extraNonce : Bytes) : MinerTxArgs where
  height := 1
  medianWeight := 0
  alreadyGeneratedCoins := 0
  fee := 5
  minerAddress := ⟨Blob.zero 32, Blob.zero 32⟩
  extraNonce := extraNonce
  maxOuts := 1
  hardForkVersion := 16

def zeroKeys : MinerFunctions := minerFunctions (fun _ => Blob.zero 32) fun _ _ _ => some (Blob.zero 32, Blob.zero 1)

theorem miner_outputs_first_block :
    ∃ reward tx, getBlockReward 0 0 0 16 = some reward ∧ constructMinerTx zeroKeys (firstBlockArgs []) 0 0 = some tx ∧
      Pays (reward.toNat + 5) (tx.vout.map TxOut.amount) := by
  obtain ⟨tx, hconstruct, -, hpays⟩ :=
    ((miner_outputs (fun _ => Blob.zero 32) fun _ _ _ => some (Blob.zero 32, Blob.zero 1)).2 (firstBlockArgs []) 0 0 _
      (by decide) rfl (by decide) (by decide) fun _ => rfl).1 (by decide)
  exact ⟨_, tx, rfl, hconstruct, hpays⟩

theorem long_nonce_fails :
    (∃ reward, getBlockReward 0 0 0 16 = some reward ∧ reward.toNat + 5 < 2 ^ 64) ∧
      constructMinerTx zeroKeys (firstBlockArgs (List.replicate 256 0)) 0 0 = none := by
  refine ⟨⟨_, rfl, by decide⟩, ?_⟩
  decide +kernel

end Velkavo.Core
