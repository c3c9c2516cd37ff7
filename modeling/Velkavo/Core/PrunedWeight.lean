import Velkavo.Core.MinerTx
import Velkavo.Cryptonote.PrunedForm

namespace Velkavo.Core

open ByteCodec ByteCodec.Codec Cryptonote Rct

def addClawback (tx : Transaction) (nPaddedOutputs : ℕ) (weight : UInt64) : Option UInt64 := do
  let clawback ← getTransactionWeightClawback tx nPaddedOutputs
  if 2 ^ 64 - 1 - weight.toNat < clawback then none else some (weight + UInt64.ofNat clawback)

def getTransactionWeightOfBlob (tx : Transaction) (blobSize : UInt64) : Option UInt64 :=
  if tx.pruned then some 0xffffffffffffffff
  else if tx.version < 2 then some blobSize
  else if !tx.rctSignatures.type.isBulletproof && !tx.rctSignatures.type.isBulletproofPlus then some blobSize
  else
    let nPaddedOutputs :=
      if tx.rctSignatures.type.isBulletproofPlus then nBulletproofPlusMaxAmounts tx.rctSignatures.p.bulletproofsPlus
      else nBulletproofMaxAmounts tx.rctSignatures.p.bulletproofs
    addClawback tx nPaddedOutputs blobSize

def getPrunedTransactionWeight (tx : Transaction) : Option UInt64 :=
  if !tx.pruned then some 0xffffffffffffffff
  else if tx.version < 2 then some 0xffffffffffffffff
  else if tx.rctSignatures.type ∉ [.bulletproof2, .clsag, .bulletproofPlus] then some 0xffffffffffffffff
  else
    match tx.vin with
    | .toKey txin :: _ =>
      let size := ((transaction true).write tx).length
      -- the smallest power of two that is no less than the number of outputs
      let nrl := Nat.clog 2 tx.vout.length
      let proof := 32 * ((if tx.rctSignatures.type.isBulletproofPlus then 6 else 9) + 2 * (nrl + 6)) + 2
      let ringSize := txin.keyOffsets.length
      let rings :=
        if tx.rctSignatures.type.isClsag then tx.vin.length * (ringSize + 2) * 32
        else tx.vin.length * (ringSize * (1 + 1) * 32 + 32)
      let pseudoOuts := 32 * tx.vin.length
      addClawback tx (2 ^ nrl) (UInt64.ofNat (size + 1 + proof + rings + pseudoOuts))
    | _ => some 0xffffffffffffffff

def SingleProof (tx : Transaction) : Prop :=
  if tx.rctSignatures.type.isBulletproofPlus then
    ∃ proof, tx.rctSignatures.p.bulletproofsPlus = [proof] ∧ proof.L.length = 6 + Nat.clog 2 tx.vout.length
  else ∃ proof, tx.rctSignatures.p.bulletproofs = [proof] ∧ proof.L.length = 6 + Nat.clog 2 tx.vout.length

section

theorem hasSize_key : HasSize key 32 := hasSize_blob 32

theorem hasSize_clsag (mixin : ℕ) : HasSize (clsag mixin) ((mixin + 1) * 32 + (32 + 32)) :=
  ((hasSize_key.many (mixin + 1)).seq (hasSize_key.seq hasSize_key)).view

theorem hasSize_mgSig (mixin rows : ℕ) : HasSize (mgSig mixin rows) ((mixin + 1) * (rows * 32) + 32) :=
  (((hasSize_key.many rows).many (mixin + 1)).seq hasSize_key).view

theorem length_write_keyV {l : List Key} (h : l.length < 128) : (keyV.write l).length = 1 + l.length * 32 :=
  length_write_container (hasSize_blob 32) h fun _ _ => rfl

theorem length_write_bulletproof {proof : Bulletproof} {n : ℕ} (hL : proof.L.length = n) (hR : proof.R.length = n)
    (hn : n < 128) : (bulletproof.write proof).length = 32 * (9 + 2 * n) + 2 := by
  have hwrite : bulletproof.write proof = proof.A.bytes ++ (proof.S.bytes ++ (proof.T1.bytes ++ (proof.T2.bytes ++
      (proof.taux.bytes ++ (proof.mu.bytes ++ (keyV.write proof.L ++ (keyV.write proof.R ++
        (proof.a.bytes ++ (proof.b.bytes ++ proof.t.bytes))))))))) := rfl
  rw [hwrite]
  simp only [List.length_append, Blob.length_eq, length_write_keyV (hL.trans_lt hn), length_write_keyV (hR.trans_lt hn),
    hL, hR]
  omega

theorem length_write_bulletproofPlus {proof : BulletproofPlus} {n : ℕ} (hL : proof.L.length = n)
    (hR : proof.R.length = n) (hn : n < 128) : (bulletproofPlus.write proof).length = 32 * (6 + 2 * n) + 2 := by
  have hwrite : bulletproofPlus.write proof = proof.A.bytes ++ (proof.A1.bytes ++ (proof.B.bytes ++ (proof.r1.bytes ++
      (proof.s1.bytes ++ (proof.d1.bytes ++ (keyV.write proof.L ++ keyV.write proof.R)))))) := rfl
  rw [hwrite]
  simp only [List.length_append, Blob.length_eq, length_write_keyV (hL.trans_lt hn), length_write_keyV (hR.trans_lt hn),
    hL, hR]
  omega

theorem write_counted_single {α : Type} (c : Codec α) (limit : ℕ) (a : α) :
    (counted varint32 limit c).write [a] = 1 :: c.write a := by
  have hwrite : (counted varint32 limit c).write [a] = writeVarint 1 ++ (c.write a ++ []) := rfl
  rw [hwrite, writeVarint_small (by decide), List.append_nil]
  rfl

variable {inputs : ℕ} {p : RctSigPrunable}

theorem write_rctSigPrunable {t : RctType} (ht : t ≠ .null) {outputs mixin : ℕ}
    (h : p.WellFormed t inputs outputs mixin) :
    (rctSigPrunable t inputs outputs mixin).write p =
      (rangeProofs t outputs).write (p.rangeSigs, p.bulletproofs, p.bulletproofsPlus) ++
        ((ringSignatures t inputs mixin).write (p.MGs, p.CLSAGs) ++
          (if t.isBulletproof || t.isBulletproofPlus then many inputs key else absent []).write p.pseudoOuts) := by
  rw [rctSigPrunable, if_neg (not_le.mpr h.inputs_lt), if_neg (not_le.mpr h.outputs_lt),
    if_neg (not_le.mpr h.mixin_lt), if_neg ht]
  rfl

theorem length_write_clsags {t : RctType} (ht : t.isClsag = true) {mixin : ℕ}
    (h : p.RingSignaturesWellFormed t inputs mixin) :
    ((ringSignatures t inputs mixin).write (p.MGs, p.CLSAGs)).length = inputs * (mixin + 1 + 2) * 32 := by
  have hvalid := (valid_ringSignatures t inputs mixin p).mpr h
  rw [ringSignatures, if_pos ht] at hvalid ⊢
  rw [valid_seq, Bool.and_eq_true] at hvalid
  have hclsags := (hasSize_clsag mixin).many inputs _ hvalid.2
  change ((many inputs (clsag mixin)).write p.CLSAGs).length = _
  rw [hclsags]
  ring

theorem length_write_mgs {mixin : ℕ}
    (h : p.RingSignaturesWellFormed .bulletproof2 inputs mixin) :
    ((ringSignatures .bulletproof2 inputs mixin).write (p.MGs, p.CLSAGs)).length =
      inputs * ((mixin + 1) * (1 + 1) * 32 + 32) := by
  have hvalid := (valid_ringSignatures .bulletproof2 inputs mixin p).mpr h
  have hmgs := (hasSize_mgSig mixin 2).many inputs _ (Bool.and_eq_true_iff.mp hvalid).1
  change ((many inputs (mgSig mixin 2)).write p.MGs ++ []).length = _
  rw [List.append_nil, hmgs]
  ring

theorem length_write_pseudoOuts {l : List Key} (h : l.length = inputs) :
    ((many inputs key).write l).length = 32 * inputs := by
  rw [hasSize_key.many inputs l ((valid_many_key inputs l).mpr h), Nat.mul_comm]

end

theorem mixin_succ {vin : List Txin} {ringSize : ℕ} (hvin : vin ≠ [])
    (hring : ∀ i ∈ vin, ∃ txin, i = .toKey txin ∧ txin.keyOffsets.length = ringSize)
    (hmixin : mixin vin < 0xffffffff) (hsized : ∀ i ∈ vin, i.Sized) : mixin vin + 1 = ringSize := by
  obtain ⟨i, rest, rfl⟩ := List.exists_cons_of_ne_nil hvin
  obtain ⟨txin, rfl, hlen⟩ := hring i List.mem_cons_self
  have hsize : txin.keyOffsets.length < 2 ^ 64 := hsized _ List.mem_cons_self
  rw [mixin] at hmixin ⊢
  omega

theorem amounts_of_single {l r outputs k : ℕ} (hout : 1 ≤ outputs)
    (hroom : outputs ≤ sumAmounts 0 [nBulletproofMaxAmountsBase l r 16]) (hl : l = 6 + k) :
    r = 6 + k ∧ k ≤ 4 ∧ sumAmounts 0 [nBulletproofMaxAmountsBase l r 16] = 2 ^ k := by
  have hne := ne_zero_of_sumAmounts (Nat.lt_of_lt_of_le hout hroom) _ List.mem_cons_self
  obtain ⟨hmin, hmax, heq⟩ := sizes_of_maxAmountsBase hne
  have hk : k ≤ 4 := by omega
  have hpow : 2 ^ k ≤ 2 ^ 4 := Nat.pow_le_pow_right two_pos hk
  have hbase : nBulletproofMaxAmountsBase l r 16 = 2 ^ k := by
    rw [nBulletproofMaxAmountsBase, if_neg (by omega), if_neg (by omega), if_neg (by decide), if_neg (by omega), hl,
      Nat.add_sub_cancel_left, Nat.one_shiftLeft]
  refine ⟨by omega, hk, ?_⟩
  rw [hbase] at hne ⊢
  rw [sumAmounts, if_neg (by omega), if_neg hne, sumAmounts, Nat.zero_add]

variable {tx : Transaction}

theorem SingleProof.spec (hproof : SingleProof tx)
    (htype : tx.rctSignatures.type ∈ [.bulletproof2, .clsag, .bulletproofPlus]) (hout : 1 ≤ tx.vout.length)
    (hwf : tx.rctSignatures.p.RangeProofsWellFormed tx.rctSignatures.type tx.vout.length) :
    (if tx.rctSignatures.type.isBulletproofPlus then
        nBulletproofPlusMaxAmounts tx.rctSignatures.p.bulletproofsPlus
      else nBulletproofMaxAmounts tx.rctSignatures.p.bulletproofs) = 2 ^ Nat.clog 2 tx.vout.length ∧
    ((rangeProofs tx.rctSignatures.type tx.vout.length).write (tx.rctSignatures.p.rangeSigs,
        tx.rctSignatures.p.bulletproofs, tx.rctSignatures.p.bulletproofsPlus)).length =
      1 + (32 * ((if tx.rctSignatures.type.isBulletproofPlus then 6 else 9) +
        2 * (Nat.clog 2 tx.vout.length + 6)) + 2) := by
  unfold SingleProof at hproof
  unfold RctSigPrunable.RangeProofsWellFormed at hwf
  by_cases hplus : tx.rctSignatures.type.isBulletproofPlus = true
  · rw [if_pos hplus] at hproof hwf
    obtain ⟨proof, hsingle, hL⟩ := hproof
    rw [hsingle] at hwf
    obtain ⟨hR, hk, hsum⟩ := amounts_of_single hout hwf.2 hL
    rw [if_pos hplus, if_pos hplus, rangeProofs, if_pos hplus, hsingle]
    refine ⟨hsum, ?_⟩
    change ((counted varint32 tx.vout.length bulletproofPlus).write [proof]).length = _
    rw [write_counted_single, List.length_cons, length_write_bulletproofPlus hL hR (by omega)]
    omega
  · have hbp : tx.rctSignatures.type.isBulletproof = true ∧ tx.rctSignatures.type ≠ .bulletproof := by
      generalize tx.rctSignatures.type = t at htype hplus
      cases t <;> simp [RctType.isBulletproof, RctType.isBulletproofPlus] at htype hplus ⊢
    rw [if_neg hplus] at hproof hwf
    rw [if_pos hbp.1] at hwf
    obtain ⟨proof, hsingle, hL⟩ := hproof
    rw [hsingle] at hwf
    obtain ⟨hR, hk, hsum⟩ := amounts_of_single hout hwf.2 hL
    rw [if_neg hplus, if_neg hplus, rangeProofs, if_neg hplus, if_pos hbp.1, if_neg hbp.2, hsingle]
    refine ⟨hsum, ?_⟩
    change ((counted varint32 tx.vout.length bulletproof).write [proof] ++ []).length = _
    rw [List.append_nil, write_counted_single, List.length_cons, length_write_bulletproof hL hR (by omega)]
    omega

theorem length_write_ringSignatures {t : RctType} (htype : t ∈ [.bulletproof2, .clsag, .bulletproofPlus])
    {inputs mixin : ℕ} {p : RctSigPrunable} (h : p.RingSignaturesWellFormed t inputs mixin) :
    ((ringSignatures t inputs mixin).write (p.MGs, p.CLSAGs)).length =
      if t.isClsag then inputs * (mixin + 1 + 2) * 32 else inputs * ((mixin + 1) * (1 + 1) * 32 + 32) := by
  by_cases hclsag : t.isClsag = true
  · rw [if_pos hclsag, length_write_clsags hclsag h]
  · obtain rfl : t = .bulletproof2 := by
      cases t <;> simp [RctType.isClsag] at htype hclsag ⊢
    rw [if_neg hclsag, length_write_mgs h]

theorem addClawback_congr {tx' : Transaction} (hpre : tx'.toTransactionPrefix = tx.toTransactionPrefix)
    (htype : tx'.rctSignatures.type = tx.rctSignatures.type) (n : ℕ) (weight : UInt64) :
    addClawback tx' n weight = addClawback tx n weight := by
  simp only [addClawback, getTransactionWeightClawback, hpre, htype]

theorem getPrunedTransactionWeight_eq {ringSize : ℕ} (hpruned : tx.pruned = true)
    (hversion : tx.version = 2) (htype : tx.rctSignatures.type ∈ [.bulletproof2, .clsag, .bulletproofPlus])
    (hvin : tx.vin ≠ []) (hring : ∀ i ∈ tx.vin, ∃ txin, i = .toKey txin ∧ txin.keyOffsets.length = ringSize) :
    getPrunedTransactionWeight tx = addClawback tx (2 ^ Nat.clog 2 tx.vout.length)
      (UInt64.ofNat ((transactionBase.write tx).length + 1 +
        (32 * ((if tx.rctSignatures.type.isBulletproofPlus then 6 else 9) +
          2 * (Nat.clog 2 tx.vout.length + 6)) + 2) +
        (if tx.rctSignatures.type.isClsag then tx.vin.length * (ringSize + 2) * 32
          else tx.vin.length * (ringSize * (1 + 1) * 32 + 32)) + 32 * tx.vin.length)) := by
  obtain ⟨i, rest, hcons⟩ := List.exists_cons_of_ne_nil hvin
  obtain ⟨txin, rfl, hlen⟩ := hring i (hcons ▸ List.mem_cons_self)
  rw [getPrunedTransactionWeight, hpruned, Bool.not_true, if_neg Bool.false_ne_true, hversion, if_neg (by decide),
    if_neg (not_not.mpr htype), hcons, ← hlen, ← write_pruned_eq_base hversion hvin]

end Velkavo.Core
