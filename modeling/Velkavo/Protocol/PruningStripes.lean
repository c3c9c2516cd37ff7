import Velkavo.Protocol.BlockQueue

/-! Which heights a pruned node keeps, and the next height that it keeps or does not. -/

namespace Velkavo.Protocol

open BlockchainDb

def makePruningSeed (stripe logStripes : UInt32) : Option UInt32 :=
  if ¬ logStripes ≤ pruningSeedLogStripesMask then none
  else if ¬ (stripe > 0 ∧ stripe.toUInt64 ≤ 1 <<< logStripes.toUInt64) then none
  else some ((logStripes <<< pruningSeedLogStripesShift) ||| ((stripe - 1) <<< pruningSeedStripeShift))

def getNextPrunedBlockHeight (blockHeight blockchainHeight : UInt64) (pruningSeed : UInt32) : Option UInt64 :=
  let stripe := (getPruningStripe pruningSeed).toUInt64
  if stripe = 0 then some blockchainHeight
  else if blockHeight + pruningTipBlocks ≥ blockchainHeight then some blockchainHeight
  else
    let seedLogStripes := getPruningLogStripes pruningSeed
    let logStripes := (if seedLogStripes ≠ 0 then seedLogStripes else pruningLogStripes).toUInt64
    let mask := (1 <<< logStripes) - 1
    let blockPruningSeed := ((blockHeight / pruningStripeSize) &&& mask) + 1
    if blockPruningSeed ≠ stripe then some blockHeight
    else
      let nextStripe := 1 + (blockPruningSeed &&& mask)
      (makePruningSeed nextStripe.toUInt32 logStripes.toUInt32).map
        (getNextUnprunedBlockHeight blockHeight blockchainHeight)

section

variable {p b t : ℕ}

theorem isLeast_residue (ht : t < p) :
    IsLeast {y | b ≤ y ∧ y % p = t} ((b / p + if t < b % p then 1 else 0) * p + t) := by
  have hb := Nat.div_add_mod b p
  have hmod := Nat.mod_lt b (Nat.zero_lt_of_lt ht)
  refine ⟨⟨?_, ?_⟩, ?_⟩
  · split_ifs with hlt
    · rw [Nat.add_mul, Nat.mul_comm]
      omega
    · rw [Nat.add_zero, Nat.mul_comm]
      omega
  · rw [Nat.mul_add_mod', Nat.mod_eq_of_lt ht]
  · rintro y ⟨hy, hres⟩
    have hdiv := Nat.div_le_div_right (c := p) hy
    have hy' := Nat.div_add_mod y p
    have hquot : b / p + (if t < b % p then 1 else 0) ≤ y / p := by
      split_ifs with hlt
      · rcases Nat.lt_or_eq_of_le hdiv with hless | heq
        · exact hless
        · rw [← heq] at hy'
          omega
      · exact hdiv
    have hmul := Nat.mul_le_mul_right p hquot
    rw [Nat.mul_comm (y / p)] at hmul
    omega

end

def Kept (p t height x : ℕ) : Prop := height ≤ x + 5500 ∨ x / 4096 % p = t

section

def seedOf (k t : ℕ) : UInt32 :=
  (UInt32.ofNat k <<< pruningSeedLogStripesShift) ||| (UInt32.ofNat t <<< pruningSeedStripeShift)

theorem fields_seedOf : ∀ k < 8, 1 ≤ k → ∀ t < 2 ^ k,
    (getPruningStripe (seedOf k t)).toUInt64.toNat = t + 1 ∧ (getPruningLogStripes (seedOf k t)).toUInt64.toNat = k ∧
      getPruningStripe (seedOf k t) ≠ 0 ∧ getPruningLogStripes (seedOf k t) ≠ 0 ∧
      (getPruningLogStripes (seedOf k t)).toUInt64.toUInt32 = UInt32.ofNat k := by
  decide +kernel

theorem toNat_one_shiftLeft {log : UInt64} (h : log.toNat ≤ 7) : (1 <<< log : UInt64).toNat = 2 ^ log.toNat := by
  have hlt : 2 ^ log.toNat < 2 ^ 64 := Nat.pow_lt_pow_right (by decide) (by omega)
  rw [UInt64.toNat_shiftLeft, Nat.mod_eq_of_lt (a := log.toNat) (by omega), UInt64.toNat_one, Nat.one_shiftLeft,
    Nat.mod_eq_of_lt hlt]

theorem toNat_mask {log : UInt64} (h : log.toNat ≤ 7) (x : UInt64) :
    (x &&& ((1 <<< log) - 1)).toNat = x.toNat % 2 ^ log.toNat := by
  have hshift := toNat_one_shiftLeft h
  have hone : (1 : UInt64) ≤ 1 <<< log := by
    rw [UInt64.le_iff_toNat_le, hshift]
    exact Nat.one_le_two_pow
  rw [UInt64.toNat_and, UInt64.toNat_sub_of_le _ _ hone, hshift]
  exact Nat.and_two_pow_sub_one_eq_mod ..

theorem exists_seedOf {stripe logStripes seed : UInt32} (hlog : 1 ≤ logStripes)
    (hseed : makePruningSeed stripe logStripes = some seed) :
    ∃ k t, logStripes.toNat = k ∧ stripe.toNat = t + 1 ∧ 1 ≤ k ∧ k < 8 ∧ t < 2 ^ k ∧ seed = seedOf k t := by
  rw [makePruningSeed] at hseed
  split_ifs at hseed with hmask hstripe
  rw [UInt32.le_iff_toNat_le] at hmask
  rw [UInt32.le_iff_toNat_le] at hlog
  have hk : logStripes.toUInt64.toNat = logStripes.toNat := UInt32.toNat_toUInt64 ..
  have hseven : logStripes.toNat ≤ 7 := hmask
  rw [gt_iff_lt, UInt32.lt_iff_toNat_lt, UInt64.le_iff_toNat_le, toNat_one_shiftLeft (by omega), hk,
    UInt32.toNat_toUInt64] at hstripe
  obtain ⟨hpos, hle⟩ := hstripe
  have hpos' : 0 < stripe.toNat := hpos
  have hsub : stripe - 1 = UInt32.ofNat (stripe.toNat - 1) := by
    rw [← UInt32.toNat_inj, UInt32.toNat_sub_of_le _ _ (UInt32.le_iff_toNat_le.mpr (by exact hpos')),
      UInt32.toNat_ofNat_of_lt' ((Nat.sub_le _ _).trans_lt stripe.toNat_lt)]
    rfl
  refine ⟨logStripes.toNat, stripe.toNat - 1, rfl, by omega, hlog, by omega, by omega, ?_⟩
  rw [seedOf, UInt32.ofNat_toNat, ← hsub]
  exact (Option.some.inj hseed).symm

theorem makePruningSeed_eq {k t : ℕ} (hk : k < 8) (ht : t < 2 ^ k) :
    makePruningSeed (UInt32.ofNat (t + 1)) (UInt32.ofNat k) = some (seedOf k t) := by
  have hall : ∀ k < 8, ∀ t < 2 ^ k, makePruningSeed (UInt32.ofNat (t + 1)) (UInt32.ofNat k) = some (seedOf k t) := by
    decide +kernel
  exact hall k hk t ht

end

section

variable {k t : ℕ} {h height x : UInt64}

theorem toNat_stripeOf (x log : UInt64) (hlog : log.toNat ≤ 7) :
    (((x / pruningStripeSize) &&& ((1 <<< log) - 1)) + 1).toNat = x.toNat / 4096 % 2 ^ log.toNat + 1 := by
  have hsmall : x.toNat / 4096 % 2 ^ log.toNat < 128 :=
    (Nat.mod_lt _ (Nat.two_pow_pos _)).trans_le (Nat.pow_le_pow_right (by decide) hlog)
  have hsize : pruningStripeSize.toNat = 4096 := rfl
  rw [UInt64.toNat_add, toNat_mask hlog, UInt64.toNat_div, hsize, UInt64.toNat_one]
  omega

theorem tip_iff (hx : x.toNat < 2 ^ 63) : x + pruningTipBlocks ≥ height ↔ height.toNat ≤ x.toNat + 5500 := by
  have htip : pruningTipBlocks.toNat = 5500 := rfl
  rw [ge_iff_le, UInt64.le_iff_toNat_le, UInt64.toNat_add, htip]
  omega

theorem hasUnprunedBlock_iff (hk : k < 8) (hk1 : 1 ≤ k) (ht : t < 2 ^ k) (hx : x.toNat < 2 ^ 63) :
    hasUnprunedBlock x height (seedOf k t) = true ↔ Kept (2 ^ k) t height.toNat x.toNat := by
  obtain ⟨hstripe, hlog, hne, -⟩ := fields_seedOf k hk hk1 t ht
  simp only [hasUnprunedBlock, hne, ↓reduceIte, getPruningStripeOf, Kept, ← tip_iff hx, Bool.or_eq_true]
  split_ifs with htip
  · simp [htip]
  · have hstripeOf := toNat_stripeOf x (getPruningLogStripes (seedOf k t)).toUInt64 (by omega)
    rw [hlog] at hstripeOf
    simp only [htip, false_or, ← UInt64.toNat_inj, hstripeOf, hstripe]
    simp

theorem toNat_shiftRight_stripes (x : UInt64) {log : UInt64} (hlog : log.toNat ≤ 7) :
    ((x / pruningStripeSize) >>> log).toNat = x.toNat / 4096 / 2 ^ log.toNat := by
  have hsize : pruningStripeSize.toNat = 4096 := rfl
  rw [UInt64.toNat_shiftRight, UInt64.toNat_div, hsize, Nat.mod_eq_of_lt (a := log.toNat) (by omega),
    Nat.shiftRight_eq_div_pow]

theorem toNat_stripeStart (log cycleStart : UInt64) {stripe : UInt64} (hlog : log.toNat ≤ 7) (hcycle : cycleStart.toNat ≤ 2 ^ 40)
    (hstripe : stripe.toNat = t + 1) (ht : t < 2 ^ log.toNat) :
    (cycleStart * (pruningStripeSize <<< log) + (stripe - 1) * pruningStripeSize).toNat =
      (cycleStart.toNat * 2 ^ log.toNat + t) * 4096 := by
  have hsize : pruningStripeSize.toNat = 4096 := rfl
  have hpow : 2 ^ log.toNat ≤ 128 := Nat.pow_le_pow_right (by decide) hlog
  have hprod := Nat.mul_le_mul hcycle hpow
  have hshift : (pruningStripeSize <<< log).toNat = 4096 * 2 ^ log.toNat := by
    rw [UInt64.toNat_shiftLeft, hsize, Nat.mod_eq_of_lt (a := log.toNat) (by omega), Nat.shiftLeft_eq]
    exact Nat.mod_eq_of_lt (by omega)
  have hsub : (stripe - 1).toNat = t := by
    rw [UInt64.toNat_sub_of_le _ _ (UInt64.le_iff_toNat_le.mpr (by rw [hstripe]; simp)), hstripe]
    simp
  have hcomm : cycleStart.toNat * (4096 * 2 ^ log.toNat) = 4096 * (cycleStart.toNat * 2 ^ log.toNat) :=
    Nat.mul_left_comm ..
  rw [UInt64.toNat_add, UInt64.toNat_mul, UInt64.toNat_mul, hshift, hsub, hsize, hcomm]
  omega

theorem isLeast_nextUnpruned (hk : k < 8) (hk1 : 1 ≤ k) (ht : t < 2 ^ k) (hh : h ≤ maxBlockNumber)
    (hheight : height ≤ maxBlockNumber) :
    IsLeast {x : ℕ | h.toNat ≤ x ∧ Kept (2 ^ k) t height.toNat x}
      (getNextUnprunedBlockHeight h height (seedOf k t)).toNat := by
  obtain ⟨hstripe, hlog, -, hlogne, -⟩ := fields_seedOf k hk hk1 t ht
  have hmax : maxBlockNumber.toNat = 500000000 := rfl
  rw [UInt64.le_iff_toNat_le, hmax] at hh hheight
  have hne : (getPruningStripe (seedOf k t)).toUInt64 ≠ 0 := by
    intro heq
    rw [heq] at hstripe
    exact absurd hstripe (by simp)
  have hbound : (maxBlockNumber + 1).toNat = 500000001 := rfl
  have hlow : ¬ maxBlockNumber + 1 < h := by
    rw [UInt64.lt_iff_toNat_lt, hbound]
    omega
  have hlow' : ¬ maxBlockNumber + 1 < height := by
    rw [UInt64.lt_iff_toNat_lt, hbound]
    omega
  have hpos := Nat.two_pow_pos k
  simp only [getNextUnprunedBlockHeight, hlow, hlow', hne, ↓reduceIte, hlogne, ne_eq, not_false_eq_true,
    tip_iff (show h.toNat < 2 ^ 63 by omega)]
  generalize (getPruningLogStripes (seedOf k t)).toUInt64 = log at hlog
  generalize (getPruningStripe (seedOf k t)).toUInt64 = stripe at hstripe
  have hown := toNat_stripeOf h log (by omega)
  rw [hlog] at hown
  have heq : ((h / pruningStripeSize) &&& ((1 <<< log) - 1)) + 1 = stripe ↔ h.toNat / 4096 % 2 ^ k = t := by
    rw [← UInt64.toNat_inj, hown, hstripe, Nat.add_right_cancel_iff]
  have hgt : stripe > ((h / pruningStripeSize) &&& ((1 <<< log) - 1)) + 1 ↔ h.toNat / 4096 % 2 ^ k < t := by
    rw [gt_iff_lt, UInt64.lt_iff_toNat_lt, hown, hstripe, Nat.add_lt_add_iff_right]
  simp only [heq, hgt]
  by_cases htip : height.toNat ≤ h.toNat + 5500
  · rw [if_pos htip]
    exact ⟨⟨le_rfl, .inl htip⟩, fun x hx => hx.1⟩
  by_cases hsame : h.toNat / 4096 % 2 ^ k = t
  · rw [if_neg htip, if_pos hsame]
    exact ⟨⟨le_rfl, .inr hsame⟩, fun x hx => hx.1⟩
  rw [if_neg htip, if_neg hsame]
  obtain ⟨⟨hfrom, hres⟩, hleast⟩ := isLeast_residue (b := h.toNat / 4096) ht
  have hcycle : (((h / pruningStripeSize) >>> log) + if h.toNat / 4096 % 2 ^ k < t then 0 else 1).toNat =
      h.toNat / 4096 / 2 ^ k + if t < h.toNat / 4096 % 2 ^ k then 1 else 0 := by
    have hquot : h.toNat / 4096 / 2 ^ k ≤ h.toNat := (Nat.div_le_self _ _).trans (Nat.div_le_self _ _)
    rw [UInt64.toNat_add, toNat_shiftRight_stripes h (by omega), hlog]
    split_ifs with hless hmore hmore
    · omega
    · simp
      omega
    · simp
      omega
    · omega
  have hquot : h.toNat / 4096 / 2 ^ k ≤ h.toNat := (Nat.div_le_self _ _).trans (Nat.div_le_self _ _)
  generalize ((h / pruningStripeSize) >>> log) + (if h.toNat / 4096 % 2 ^ k < t then 0 else 1) = cycleStart at hcycle ⊢
  have hstart := toNat_stripeStart log cycleStart (by omega)
    (by rw [hcycle]; split_ifs <;> omega) hstripe (by rw [hlog]; exact ht)
  rw [hlog, hcycle] at hstart
  have hbig : (h.toNat / 4096 / 2 ^ k + if t < h.toNat / 4096 % 2 ^ k then 1 else 0) * 2 ^ k + t ≤ 2 ^ 30 * 2 ^ 7 + 2 ^ 7 := by
    have hpow : 2 ^ k ≤ 2 ^ 7 := Nat.pow_le_pow_right (by decide) (by omega)
    exact Nat.add_le_add (Nat.mul_le_mul (by split_ifs <;> omega) hpow) (ht.le.trans hpow)
  generalize cycleStart * (pruningStripeSize <<< log) + (stripe - 1) * pruningStripeSize = start at hstart ⊢
  generalize (h.toNat / 4096 / 2 ^ k + if t < h.toNat / 4096 % 2 ^ k then 1 else 0) * 2 ^ k + t = y at *
  have hne' : y ≠ h.toNat / 4096 := fun heq => hsame (heq ▸ hres)
  have hnext : ∀ x, h.toNat ≤ x → x / 4096 % 2 ^ k = t → start.toNat ≤ x := fun x hx hxt => by
    have hy := hleast ⟨Nat.div_le_div_right hx, hxt⟩
    omega
  have htipBlocks : pruningTipBlocks.toNat = 5500 := rfl
  have hbeyond : start + pruningTipBlocks > height ↔ height.toNat < start.toNat + 5500 := by
    rw [gt_iff_lt, UInt64.lt_iff_toNat_lt, UInt64.toNat_add, htipBlocks]
    omega
  simp only [hbeyond]
  split_ifs with hlate hshort hback
  · rw [UInt64.lt_iff_toNat_lt, htipBlocks] at hshort
    omega
  · rw [UInt64.lt_iff_toNat_lt, htipBlocks] at hshort
    rw [UInt64.toNat_sub_of_le _ _ (UInt64.le_iff_toNat_le.mpr (not_lt.mp hshort)), htipBlocks]
    refine ⟨⟨by omega, .inl (by omega)⟩, ?_⟩
    rintro x ⟨hx, hx' | hx'⟩
    · omega
    · have hfirst := hnext x hx hx'
      omega
  · rw [UInt64.lt_iff_toNat_lt] at hback
    omega
  · have hdiv : start.toNat / 4096 = y := by omega
    refine ⟨⟨by omega, .inr (by rw [hdiv]; exact hres)⟩, ?_⟩
    rintro x ⟨hx, hx' | hx'⟩
    · omega
    · exact hnext x hx hx'

theorem getNextPruned_eq (hk : k < 8) (hk1 : 1 ≤ k) (ht : t < 2 ^ k) (hh : h.toNat < 2 ^ 63) :
    getNextPrunedBlockHeight h height (seedOf k t) =
      if height.toNat ≤ h.toNat + 5500 then some height
      else if h.toNat / 4096 % 2 ^ k ≠ t then some h
      else some (getNextUnprunedBlockHeight h height (seedOf k ((t + 1) % 2 ^ k))) := by
  obtain ⟨hstripe, hlog, -, hlogne, hlogWord⟩ := fields_seedOf k hk hk1 t ht
  have hne : (getPruningStripe (seedOf k t)).toUInt64 ≠ 0 := by
    intro heq
    rw [heq] at hstripe
    exact absurd hstripe (by simp)
  simp only [getNextPrunedBlockHeight, hne, ↓reduceIte, hlogne, ne_eq, not_false_eq_true, tip_iff hh, hlogWord]
  generalize (getPruningLogStripes (seedOf k t)).toUInt64 = log at hlog
  generalize (getPruningStripe (seedOf k t)).toUInt64 = stripe at hstripe
  have hown := toNat_stripeOf h log (by omega)
  rw [hlog] at hown
  have heq : ((h / pruningStripeSize) &&& ((1 <<< log) - 1)) + 1 = stripe ↔ h.toNat / 4096 % 2 ^ k = t := by
    rw [← UInt64.toNat_inj, hown, hstripe, Nat.add_right_cancel_iff]
  simp only [heq]
  split_ifs with htip hown'
  · rfl
  · have hsmall : (t + 1) % 2 ^ k < 2 ^ 7 :=
      (Nat.mod_lt _ (Nat.two_pow_pos k)).trans_le (Nat.pow_le_pow_right (by decide) (by omega))
    have hnext : (1 + (((h / pruningStripeSize &&& ((1 : UInt64) <<< log - 1)) + 1) &&& ((1 : UInt64) <<< log - 1))).toUInt32 =
        UInt32.ofNat ((t + 1) % 2 ^ k + 1) := by
      rw [← UInt32.toNat_inj, UInt64.toNat_toUInt32, UInt64.toNat_add, toNat_mask (by omega), hown, hlog, hown',
        UInt32.toNat_ofNat_of_lt' (by change _ < 2 ^ 32; omega), UInt64.toNat_one]
      omega
    rw [hnext, makePruningSeed_eq hk (Nat.mod_lt _ (Nat.two_pow_pos k))]
    rfl
  · rfl

end

def prunedHeights (seed : UInt32) (h height : UInt64) : Set UInt64 :=
  {x | h ≤ x ∧ x < height ∧ hasUnprunedBlock x height seed = false}

structure PruningLaws (logStripes seed : UInt32) (h height : UInt64) : Prop where
  nextUnpruned : IsLeast {x | h ≤ x ∧ hasUnprunedBlock x height seed = true} (getNextUnprunedBlockHeight h height seed)
  nextPruned : ∃ r, getNextPrunedBlockHeight h height seed = some r ∧
    ((prunedHeights seed h height).Nonempty → IsLeast (prunedHeights seed h height) r) ∧
    (prunedHeights seed h height = ∅ → r = height)
  oneStripe : ∀ x : UInt64, x.toNat + 5500 < height.toNat →
    ∃! stripe, ∃ seed', makePruningSeed stripe logStripes = some seed' ∧ hasUnprunedBlock x height seed' = true

section

variable {k t height x y : ℕ}

theorem not_kept_from (hk : 1 ≤ k) (ht : t < 2 ^ k) (hown : y / 4096 % 2 ^ k = t) (hyx : y ≤ x)
    (hx : ¬ Kept (2 ^ k) t height x) : (y / 4096 + 1) * 4096 ≤ x ∧ (y / 4096 + 1) % 2 ^ k = (t + 1) % 2 ^ k ∧
      (t + 1) % 2 ^ k ≠ t ∧ ∀ z, y ≤ z → z < (y / 4096 + 1) * 4096 → z / 4096 % 2 ^ k = t := by
  rw [Kept, not_or] at hx
  have htwo : 2 ^ 1 ≤ 2 ^ k := Nat.pow_le_pow_right (by decide) hk
  have hsame : ∀ z, y ≤ z → z < (y / 4096 + 1) * 4096 → z / 4096 % 2 ^ k = t := fun z hyz hz => by
    have hdiv : z / 4096 = y / 4096 := by omega
    rw [hdiv, hown]
  refine ⟨not_lt.mp fun hlt => hx.2 (hsame x hyx hlt), ?_, ?_, hsame⟩
  · rw [Nat.add_mod, hown]
    conv_rhs => rw [Nat.add_mod, Nat.mod_eq_of_lt ht]
  · rcases Nat.lt_or_ge (t + 1) (2 ^ k) with hlt | hge
    · rw [Nat.mod_eq_of_lt hlt]
      omega
    · rw [show t + 1 = 2 ^ k by omega, Nat.mod_self]
      omega

variable {h height x : UInt64}

theorem unpruned_least (hk : k < 8) (hk1 : 1 ≤ k) (ht : t < 2 ^ k) (hh : h ≤ maxBlockNumber)
    (hheight : height ≤ maxBlockNumber) :
    (getNextUnprunedBlockHeight h height (seedOf k t)).toNat ≤ 500000000 ∧
      IsLeast {x | h ≤ x ∧ hasUnprunedBlock x height (seedOf k t) = true}
        (getNextUnprunedBlockHeight h height (seedOf k t)) := by
  obtain ⟨⟨hfrom, hkept⟩, hleast⟩ := isLeast_nextUnpruned hk hk1 ht hh hheight
  rw [UInt64.le_iff_toNat_le] at hh hheight
  have hmax : maxBlockNumber.toNat = 500000000 := rfl
  have hbound : (getNextUnprunedBlockHeight h height (seedOf k t)).toNat ≤ 500000000 :=
    (hleast ⟨le_max_left _ height.toNat, .inl (by omega)⟩).trans (by omega)
  refine ⟨hbound, ⟨UInt64.le_iff_toNat_le.mpr hfrom, (hasUnprunedBlock_iff hk hk1 ht (by omega)).mpr hkept⟩, ?_⟩
  rintro x ⟨hx, hunpruned⟩
  rw [UInt64.le_iff_toNat_le] at hx ⊢
  by_cases hsmall : x.toNat < 2 ^ 63
  · exact hleast ⟨hx, (hasUnprunedBlock_iff hk hk1 ht hsmall).mp hunpruned⟩
  · omega

theorem existsUnique_stripe {logStripes : UInt32} (hk : logStripes.toNat = k) (hk1 : 1 ≤ k) (hk8 : k < 8)
    (hheight : height ≤ maxBlockNumber) (hx : x.toNat + 5500 < height.toNat) :
    ∃! stripe, ∃ seed, makePruningSeed stripe logStripes = some seed ∧ hasUnprunedBlock x height seed = true := by
  have hmax : maxBlockNumber.toNat = 500000000 := rfl
  rw [UInt64.le_iff_toNat_le] at hheight
  have hpos := Nat.two_pow_pos k
  have hmod := Nat.mod_lt (x.toNat / 4096) hpos
  have hlog : logStripes = UInt32.ofNat k := by rw [← hk, UInt32.ofNat_toNat]
  refine ⟨UInt32.ofNat (x.toNat / 4096 % 2 ^ k + 1), ⟨seedOf k (x.toNat / 4096 % 2 ^ k), ?_, ?_⟩, ?_⟩
  · rw [hlog]
    exact makePruningSeed_eq hk8 hmod
  · exact (hasUnprunedBlock_iff hk8 hk1 hmod (by omega)).mpr (.inr rfl)
  · rintro stripe ⟨seed, hseed, hunpruned⟩
    have hone : 1 ≤ logStripes := UInt32.le_iff_toNat_le.mpr (hk.symm ▸ hk1)
    obtain ⟨k', t, hk', hstripe, -, -, ht, rfl⟩ := exists_seedOf hone hseed
    obtain rfl : k = k' := hk.symm.trans hk'
    rcases (hasUnprunedBlock_iff hk8 hk1 ht (by omega)).mp hunpruned with htip | hres
    · omega
    · rw [← UInt32.ofNat_toNat (x := stripe), hstripe, hres]

theorem pruned_least_iff (hk : k < 8) (hk1 : 1 ≤ k) (ht : t < 2 ^ k) (hh : h ≤ maxBlockNumber)
    (hheight : height ≤ maxBlockNumber) :
    (∃ r, getNextPrunedBlockHeight h height (seedOf k t) = some r ∧
      ((prunedHeights (seedOf k t) h height).Nonempty → IsLeast (prunedHeights (seedOf k t) h height) r) ∧
      (prunedHeights (seedOf k t) h height = ∅ → r = height)) ↔
    height.toNat ≤ h.toNat + 5500 ∨ (prunedHeights (seedOf k t) h height).Nonempty := by
  have hmax : maxBlockNumber.toNat = 500000000 := rfl
  have hh' := UInt64.le_iff_toNat_le.mp hh
  have hheight' := UInt64.le_iff_toNat_le.mp hheight
  have hkept : ∀ x : UInt64, x < height →
      (hasUnprunedBlock x height (seedOf k t) = false ↔ ¬ Kept (2 ^ k) t height.toNat x.toNat) := fun x hx => by
    rw [UInt64.lt_iff_toNat_lt] at hx
    rw [← hasUnprunedBlock_iff hk hk1 ht (by omega), Bool.not_eq_true]
  rw [getNextPruned_eq hk hk1 ht (by omega)]
  split_ifs with htip hother
  · -- near the tip every block is kept
    refine iff_of_true ⟨height, rfl, ?_, fun _ => rfl⟩ (.inl htip)
    rintro ⟨x, hhx, hx, hpruned⟩
    rw [UInt64.le_iff_toNat_le] at hhx
    exact absurd (.inl (by omega)) ((hkept x hx).mp hpruned)
  · have hmem : h ∈ prunedHeights (seedOf k t) h height := by
      have hlt : h < height := UInt64.lt_iff_toNat_lt.mpr (by omega)
      exact ⟨UInt64.le_refl h, hlt, (hkept h hlt).mpr fun hk => hk.elim htip hother⟩
    refine iff_of_true ⟨h, rfl, fun _ => ⟨hmem, fun x hx => hx.1⟩, fun hnone => ?_⟩ (.inr ⟨h, hmem⟩)
    exact absurd hnone (Set.nonempty_iff_ne_empty.mp ⟨h, hmem⟩)
  · rw [not_not] at hother
    obtain ⟨⟨hfrom, hnext⟩, hleast⟩ := isLeast_nextUnpruned hk hk1 (Nat.mod_lt (t + 1) (Nat.two_pow_pos k)) hh hheight
    generalize getNextUnprunedBlockHeight h height (seedOf k ((t + 1) % 2 ^ k)) = r at hfrom hnext hleast ⊢
    have hlow : r.toNat < height.toNat := by
      have hle := hleast (show height.toNat - 5500 ∈ {x | _} from ⟨by omega, .inl (by omega)⟩)
      omega
    rw [or_iff_right htip]
    constructor
    · rintro ⟨_, heq, -, hnone⟩
      by_contra hempty
      rw [← Option.some.inj heq] at hnone
      exact absurd (congrArg UInt64.toNat (hnone (Set.not_nonempty_iff_eq_empty.mp hempty))) hlow.ne
    · rintro ⟨x, hhx, hx, hpruned⟩
      have hsome : (prunedHeights (seedOf k t) h height).Nonempty := ⟨x, hhx, hx, hpruned⟩
      refine ⟨r, rfl, fun _ => ?_, fun hnone => absurd hnone (Set.nonempty_iff_ne_empty.mp hsome)⟩
      rw [UInt64.le_iff_toNat_le] at hhx
      have hxp := (hkept x hx).mp hpruned
      rw [UInt64.lt_iff_toNat_lt] at hx
      obtain ⟨hstart, hres, hne, hsame⟩ := not_kept_from hk1 ht hother hhx hxp
      have hxtip : x.toNat + 5500 < height.toNat := not_le.mp fun hle => hxp (.inl hle)
      -- the next stripe starts right after the own one
      have hr : r.toNat = (h.toNat / 4096 + 1) * 4096 := by
        apply le_antisymm
        · refine hleast ⟨by omega, .inr ?_⟩
          rw [Nat.mul_div_cancel _ (by decide), hres]
        · by_contra hlt
          rcases hnext with htip' | hres'
          · omega
          · exact hne (hres'.symm.trans (hsame r.toNat hfrom (not_le.mp hlt)))
      have hrlt : r < height := UInt64.lt_iff_toNat_lt.mpr hlow
      refine ⟨⟨UInt64.le_iff_toNat_le.mpr hfrom, hrlt, (hkept r hrlt).mpr ?_⟩, ?_⟩
      · rintro (htip' | hres')
        · omega
        · rw [hr, Nat.mul_div_cancel _ (by decide), hres] at hres'
          exact hne hres'
      · rintro z ⟨hz, hzlt, hzp⟩
        rw [UInt64.le_iff_toNat_le] at hz ⊢
        have hzstart := (not_kept_from hk1 ht hother hz ((hkept z hzlt).mp hzp)).1
        omega

end

theorem pruning_laws_iff {stripe logStripes seed : UInt32} (hlog : 1 ≤ logStripes)
    (hseed : makePruningSeed stripe logStripes = some seed) {h height : UInt64} (hh : h ≤ maxBlockNumber)
    (hheight : height ≤ maxBlockNumber) :
    PruningLaws logStripes seed h height ↔
      height.toNat ≤ h.toNat + 5500 ∨ (prunedHeights seed h height).Nonempty := by
  obtain ⟨k, t, hk, -, hk1, hk8, ht, rfl⟩ := exists_seedOf hlog hseed
  rw [← pruned_least_iff hk8 hk1 ht hh hheight]
  constructor
  · exact PruningLaws.nextPruned
  · intro hpruned
    exact ⟨(unpruned_least hk8 hk1 ht hh hheight).2, hpruned, fun x hx => existsUnique_stripe hk hk1 hk8 hheight hx⟩

theorem pruning_laws_long_chain : PruningLaws 3 (seedOf 3 0) 0 100000 := by
  refine (pruning_laws_iff (by decide) (show makePruningSeed 1 3 = some (seedOf 3 0) by decide) (by decide) (by decide)).mpr (.inr ?_)
  exact ⟨4096, by decide, by decide, by decide⟩

theorem next_pruned_near_tip : makePruningSeed 1 3 = some (seedOf 3 0) ∧ ¬ PruningLaws 3 (seedOf 3 0) 0 5600 := by
  refine ⟨by decide, fun hlaws => ?_⟩
  obtain ⟨-, ⟨r, hr, hsome, hnone⟩, -⟩ := hlaws
  have hvalue : getNextPrunedBlockHeight 0 5600 (seedOf 3 0) = some 100 := by decide +kernel
  rw [hvalue, Option.some.injEq] at hr
  rcases (prunedHeights (seedOf 3 0) 0 5600).eq_empty_or_nonempty with hempty | hex
  · exact absurd (hr.trans (hnone hempty)) (by decide)
  · have hmem := (hsome hex).1.2.2
    rw [← hr] at hmem
    exact absurd hmem (by decide +kernel)

end Velkavo.Protocol
