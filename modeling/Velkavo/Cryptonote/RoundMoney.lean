import Velkavo.Cryptonote.Money

namespace Velkavo.Cryptonote

open ByteCodec

def oneDigit : UInt8 := 0x31

def nineDigit : UInt8 := 0x39

def bumpDigits : Bytes → Bytes × Bool
  | [] => ([], true)
  | c :: s =>
    if c = nineDigit then (zeroDigit :: (bumpDigits s).1, (bumpDigits s).2)
    else ((c + 1) :: s, false)

def roundDigits (buf : Bytes) (significantDigits : ℕ) : Bytes :=
  if buf.length > significantDigits then
    let past := buf.drop significantDigits
    let zeros := past.map fun _ => zeroDigit
    if past.any (· ≠ zeroDigit) then
      let (digits, bump) := bumpDigits (buf.take significantDigits).reverse
      if bump then oneDigit :: (digits.reverse ++ zeros) else digits.reverse ++ zeros
    else buf.take significantDigits ++ zeros
  else buf

def strtoull (s : Bytes) : UInt64 × Bool :=
  if decimalValue s < 2 ^ 64 then (UInt64.ofNat (decimalValue s), false) else (0xFFFFFFFFFFFFFFFF, true)

def roundMoneyUp (amount : UInt64) (significantDigits : ℕ) : Option UInt64 :=
  if significantDigits = 0 then none
  else
    let (ull, errno) := strtoull (roundDigits (decimal amount.toNat) significantDigits)
    if ¬ (ull ≠ 0xFFFFFFFFFFFFFFFF ∨ errno = false) then none
    else if ¬ (ull ≠ 0 ∨ amount = 0) then none
    else some ull

def Significant (k n : ℕ) : Prop := ∃ m < 10 ^ k, ∃ e, n = m * 10 ^ e

section

theorem decimalValue_bumpDigits {s : Bytes} (h : ∀ c ∈ s, isDigit c = true) :
    (bumpDigits s).1.length = s.length ∧
      (if (bumpDigits s).2 then 10 ^ s.length else 0) + decimalValue (bumpDigits s).1.reverse =
        decimalValue s.reverse + 1 := by
  induction s with
  | nil => exact ⟨rfl, rfl⟩
  | cons c s ih =>
    obtain ⟨hlen, hvalue⟩ := ih fun d hd => h d (by simp [hd])
    by_cases hnine : c = nineDigit
    · rw [bumpDigits, if_pos hnine]
      refine ⟨by simp [hlen], ?_⟩
      simp only [List.reverse_cons, decimalValue_append, decimalValue_singleton, hnine, List.length_cons, List.length_nil, pow_succ]
      have hzero : zeroDigit.toNat - 0x30 = 0 := rfl
      have hnine : nineDigit.toNat - 0x30 = 9 := rfl
      rw [hzero, hnine]
      split_ifs at hvalue ⊢ <;> omega
    · rw [bumpDigits, if_neg hnine]
      refine ⟨rfl, ?_⟩
      have hc := isDigit_iff.mp (h c (by simp))
      have hne : c.toNat ≠ 0x39 := fun heq => hnine (UInt8.toNat_inj.mp heq)
      have hbump : (c + 1).toNat = c.toNat + 1 := by
        rw [UInt8.toNat_add]
        exact Nat.mod_eq_of_lt (by have : (1 : UInt8).toNat = 1 := rfl; omega)
      simp only [List.reverse_cons, decimalValue_append, decimalValue_singleton, hbump]
      simp
      omega

theorem decimalValue_zeros (s : Bytes) : decimalValue (s.map fun _ => zeroDigit) = 0 := by
  rw [List.map_const', ← List.append_nil (List.replicate _ _), decimalValue_replicate]
  rfl

theorem any_ne_zeroDigit {s : Bytes} (h : ∀ c ∈ s, isDigit c = true) :
    s.any (· ≠ zeroDigit) = true ↔ decimalValue s ≠ 0 := by
  induction s using List.reverseRecOn with
  | nil => simp [decimalValue]
  | append_singleton s c ih =>
    have hs := ih fun d hd => h d (by simp [hd])
    have hc := isDigit_iff.mp (h c (by simp))
    have hzero : c ≠ zeroDigit ↔ c.toNat - 0x30 ≠ 0 := by
      rw [not_iff_not, ← UInt8.toNat_inj]
      have : zeroDigit.toNat = 0x30 := rfl
      omega
    rw [List.any_append, Bool.or_eq_true, hs, decimalValue_append, decimalValue_singleton]
    simp only [List.any_cons, List.any_nil, Bool.or_false, decide_eq_true_eq, hzero, List.length_singleton, pow_one]
    omega

end

def roundUp (n p : ℕ) : ℕ := (n + (p - 1)) / p * p

theorem roundUp_eq {h t p : ℕ} (ht : t < p) : roundUp (h * p + t) p = (if t = 0 then h else h + 1) * p := by
  have hp : 0 < p := by omega
  rw [roundUp]
  split_ifs with hzero
  · rw [hzero, Nat.add_zero, Nat.add_comm, Nat.add_mul_div_right _ _ hp, Nat.div_eq_of_lt (by omega), Nat.zero_add]
  · have hsum : h * p + t + (p - 1) = (t - 1) + (h + 1) * p := by
      rw [Nat.succ_mul]
      omega
    rw [hsum, Nat.add_mul_div_right _ _ hp, Nat.div_eq_of_lt (by omega), Nat.zero_add]

theorem le_roundUp {n p : ℕ} (hp : 0 < p) : n ≤ roundUp n p := by
  conv_lhs => rw [← Nat.div_add_mod' n p]
  conv_rhs => rw [← Nat.div_add_mod' n p]
  have ht := Nat.mod_lt n hp
  rw [roundUp_eq ht]
  split_ifs with hzero
  · rw [hzero, Nat.add_zero]
  · rw [Nat.succ_mul]
    omega

theorem roundUp_le {n p m : ℕ} (hn : n ≤ m * p) : roundUp n p ≤ m * p := by
  rcases Nat.eq_zero_or_pos p with rfl | hp
  · simp [roundUp]
  · refine Nat.mul_le_mul_right p ?_
    rw [Nat.div_le_iff_le_mul hp]
    omega

theorem decimalValue_roundDigits {buf : Bytes} (h : ∀ c ∈ buf, isDigit c = true) (k : ℕ) :
    decimalValue (roundDigits buf k) = roundUp (decimalValue buf) (10 ^ (buf.length - k)) := by
  by_cases hlen : buf.length > k
  · rw [roundDigits, if_pos hlen]
    have hhead : ∀ c ∈ (buf.take k).reverse, isDigit c = true := fun c hc =>
      h c (List.mem_of_mem_take (List.mem_reverse.mp hc))
    have hpast : ∀ c ∈ buf.drop k, isDigit c = true := fun c hc => h c (List.mem_of_mem_drop hc)
    have hsplit : decimalValue buf =
        decimalValue (buf.take k) * 10 ^ (buf.length - k) + decimalValue (buf.drop k) := by
      conv_lhs => rw [← List.take_append_drop k buf]
      rw [decimalValue_append, List.length_drop]
    have hlt : decimalValue (buf.drop k) < 10 ^ (buf.length - k) := by
      rw [← List.length_drop]
      exact decimalValue_lt hpast
    obtain ⟨hsame, hbumped⟩ := decimalValue_bumpDigits hhead
    have htake : (buf.take k).reverse.length = k := by
      rw [List.length_reverse, List.length_take]
      omega
    rw [htake] at hsame hbumped
    rw [List.reverse_reverse] at hbumped
    rw [hsplit, roundUp_eq hlt]
    generalize bumpDigits (buf.take k).reverse = bumped at hsame hbumped ⊢
    obtain ⟨digits, bump⟩ := bumped
    simp only at hsame hbumped ⊢
    by_cases hany : (buf.drop k).any (· ≠ zeroDigit) = true
    · rw [if_pos hany, if_neg ((any_ne_zeroDigit hpast).mp hany), ← hbumped]
      split_ifs with hover
      · -- the carry stands in front of the digits and of the zeros
        rw [← List.singleton_append, decimalValue_append, decimalValue_append, decimalValue_zeros,
          decimalValue_singleton, List.length_append, List.length_reverse, List.length_map, List.length_drop,
          hsame, pow_add]
        have hone : oneDigit.toNat - 0x30 = 1 := rfl
        rw [hone]
        ring
      · rw [decimalValue_append, decimalValue_zeros, List.length_map, List.length_drop, Nat.zero_add, Nat.add_zero]
    · have hzero : decimalValue (buf.drop k) = 0 := by
        by_contra hne
        exact hany ((any_ne_zeroDigit hpast).mpr hne)
      rw [if_neg hany, if_pos hzero, decimalValue_append, decimalValue_zeros, List.length_map, List.length_drop,
        Nat.add_zero]
  · rw [roundDigits, if_neg hlen, Nat.sub_eq_zero_of_le (by omega), roundUp]
    simp

def lastPlace (amount : UInt64) (k : ℕ) : ℕ := 10 ^ ((decimal amount.toNat).length - k)

theorem roundMoneyUp_eq {amount : UInt64} {k : ℕ} (hk : 1 ≤ k) :
    roundMoneyUp amount k =
      if roundUp amount.toNat (lastPlace amount k) < 2 ^ 64
      then some (UInt64.ofNat (roundUp amount.toNat (lastPlace amount k))) else none := by
  have hvalue : decimalValue (roundDigits (decimal amount.toNat) k) = roundUp amount.toNat (lastPlace amount k) := by
    rw [decimalValue_roundDigits fun c hc => isDigit_of_mem_decimal hc, decimalValue_decimal, lastPlace]
  rw [roundMoneyUp, if_neg (by omega), strtoull, hvalue]
  by_cases hfits : roundUp amount.toNat (lastPlace amount k) < 2 ^ 64
  · have hpos : UInt64.ofNat (roundUp amount.toNat (lastPlace amount k)) ≠ 0 ∨ amount = 0 := by
      by_contra hnot
      obtain ⟨hzero, hamount⟩ := not_or.mp hnot
      refine hamount (UInt64.toNat_inj.mp ?_)
      have hle : amount.toNat ≤ roundUp amount.toNat (lastPlace amount k) := le_roundUp (by simp [lastPlace])
      have heq := congrArg UInt64.toNat (not_not.mp hzero)
      rw [UInt64.toNat_ofNat_of_lt' hfits] at heq
      have : (0 : UInt64).toNat = 0 := rfl
      omega
    simp only [if_pos hfits]
    rw [if_neg (by simp), if_neg (not_not.mpr hpos)]
  · simp only [if_neg hfits]
    rw [if_pos (by simp)]

theorem isLeast_roundUp (amount : UInt64) {k : ℕ} (hk : 1 ≤ k) :
    IsLeast {n | amount.toNat ≤ n ∧ Significant k n} (roundUp amount.toNat (lastPlace amount k)) := by
  have hpos : 0 < lastPlace amount k := by simp [lastPlace]
  refine ⟨⟨le_roundUp hpos, ?_⟩, ?_⟩
  · have hlt : amount.toNat < 10 ^ (decimal amount.toNat).length := by
      have hlt := decimalValue_lt fun c hc => isDigit_of_mem_decimal (n := amount.toNat) hc
      rwa [decimalValue_decimal] at hlt
    have hcap : amount.toNat ≤ 10 ^ k * lastPlace amount k := by
      refine hlt.le.trans ?_
      rw [lastPlace, ← pow_add]
      exact Nat.pow_le_pow_right (by decide) (by omega)
    have hdigits : roundUp amount.toNat (lastPlace amount k) / lastPlace amount k ≤ 10 ^ k := by
      rw [← Nat.mul_div_cancel (10 ^ k) hpos]
      exact Nat.div_le_div_right (roundUp_le hcap)
    rw [roundUp, Nat.mul_div_cancel _ hpos] at hdigits
    rcases hdigits.lt_or_eq with hfew | hcarry
    · exact ⟨_, hfew, _, rfl⟩
    · -- a one and nothing but zeros
      refine ⟨1, Nat.one_lt_pow (by omega) (by decide), k + ((decimal amount.toNat).length - k), ?_⟩
      rw [roundUp, hcarry, lastPlace, pow_add, Nat.one_mul]
  · rintro n ⟨hle, m, hm, e, rfl⟩
    rcases Nat.eq_zero_or_pos amount.toNat with hzero | hamount
    · rw [hzero]
      exact (roundUp_le (m := 0) (by simp)).trans (by simp)
    · have hplaces : (decimal amount.toNat).length - k ≤ e := by
        have hshort : 10 ^ (decimal amount.toNat).length < 10 ^ (1 + k + e) := by
          calc 10 ^ (decimal amount.toNat).length
              ≤ 10 * amount.toNat := pow_length_decimal_le (by omega)
            _ ≤ 10 * (m * 10 ^ e) := Nat.mul_le_mul_left 10 hle
            _ < 10 * (10 ^ k * 10 ^ e) := by
                exact Nat.mul_lt_mul_of_pos_left (Nat.mul_lt_mul_of_pos_right hm (by simp)) (by decide)
            _ = 10 ^ (1 + k + e) := by rw [pow_add, pow_add, pow_one, Nat.mul_assoc]
        have := (Nat.pow_lt_pow_iff_right (by decide)).mp hshort
        omega
      have hmultiple : m * 10 ^ e = m * 10 ^ (e - ((decimal amount.toNat).length - k)) * lastPlace amount k := by
        rw [lastPlace, Nat.mul_assoc, ← pow_add, Nat.sub_add_cancel hplaces]
      rw [hmultiple] at hle ⊢
      exact roundUp_le hle

theorem isLeast_roundMoneyUp {amount r : UInt64} {k : ℕ} (hk : 1 ≤ k) (h : roundMoneyUp amount k = some r) :
    IsLeast {n | amount.toNat ≤ n ∧ Significant k n} r.toNat := by
  rw [roundMoneyUp_eq hk] at h
  split_ifs at h with hfits
  rw [← Option.some.inj h, UInt64.toNat_ofNat_of_lt' hfits]
  exact isLeast_roundUp amount hk

theorem roundMoneyUp_mono {a b r r' : UInt64} {k : ℕ} (hk : 1 ≤ k) (h : roundMoneyUp a k = some r)
    (h' : roundMoneyUp b k = some r') (hab : a.toNat ≤ b.toNat) : r.toNat ≤ r'.toNat := by
  obtain ⟨hle, hdigits⟩ := (isLeast_roundMoneyUp hk h').1
  exact (isLeast_roundMoneyUp hk h).2 ⟨hab.trans hle, hdigits⟩

theorem exists_roundMoneyUp (amount : UInt64) {k : ℕ} (hk : 1 ≤ k) (h : amount.toNat ≤ 10 ^ 19) :
    ∃ r, roundMoneyUp amount k = some r := by
  have hle : roundUp amount.toNat (lastPlace amount k) ≤ 10 ^ 19 :=
    (isLeast_roundUp amount hk).2 ⟨h, 1, Nat.one_lt_pow (by omega) (by decide), 19, by decide⟩
  rw [roundMoneyUp_eq hk, if_pos (by omega)]
  exact ⟨_, rfl⟩

theorem round_money_up_least (amount : UInt64) {k : ℕ} (hk : 1 ≤ k) :
    ∃ n, IsLeast {n | amount.toNat ≤ n ∧ Significant k n} n ∧
      roundMoneyUp amount k = (if n < 2 ^ 64 then some (UInt64.ofNat n) else none) ∧
      ∀ r, roundMoneyUp amount k = some r → amount ≤ r := by
  refine ⟨_, isLeast_roundUp amount hk, roundMoneyUp_eq hk, fun r hr => ?_⟩
  exact UInt64.le_iff_toNat_le.mpr (isLeast_roundMoneyUp hk hr).1.1

theorem round_money_up_least_nines :
    roundMoneyUp 99901 3 = some 100000 ∧
      ∃ n, IsLeast {n | (99901 : UInt64).toNat ≤ n ∧ Significant 3 n} n ∧
        roundMoneyUp 99901 3 = (if n < 2 ^ 64 then some (UInt64.ofNat n) else none) ∧
        ∀ r, roundMoneyUp 99901 3 = some r → 99901 ≤ r :=
  ⟨by rw [roundMoneyUp_eq (by decide)]; decide +kernel, round_money_up_least 99901 (by decide)⟩

end Velkavo.Cryptonote
