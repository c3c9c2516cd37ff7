import Velkavo.Ringct.RctSerialization

namespace Velkavo.Rct

open ByteCodec ByteCodec.Codec

def RctSigBase.serialised (b : RctSigBase) : RctSigBase :=
  if b.type = .null then default
  else
    { type := b.type
      pseudoOuts := if b.type = .simple then b.pseudoOuts else []
      ecdhInfo := b.ecdhInfo.map fun e =>
        if b.type.shortEcdh then ⟨Blob.zero 32, extendAmount (truncAmount e.amount)⟩ else e
      outPk := b.outPk.map fun k => ⟨Blob.zero 32, k.mask⟩
      txnFee := b.txnFee }

def RctSigPrunable.serialised (t : RctType) (p : RctSigPrunable) : RctSigPrunable :=
  { rangeSigs := if t.isBulletproof || t.isBulletproofPlus then [] else p.rangeSigs
    bulletproofs := if t.isBulletproof then p.bulletproofs.map ({ · with V := [] }) else []
    bulletproofsPlus := if t.isBulletproofPlus then p.bulletproofsPlus.map ({ · with V := [] }) else []
    MGs := if t.isClsag then [] else p.MGs
    CLSAGs := if t.isClsag then p.CLSAGs else []
    pseudoOuts := if t.isBulletproof || t.isBulletproofPlus then p.pseudoOuts else [] }

def RctSig.serialised (s : RctSig) : RctSig :=
  ⟨s.toRctSigBase.serialised, if s.type = .null then default else s.p.serialised s.type⟩

def RctSigBase.WellFormed (inputs outputs : ℕ) (b : RctSigBase) : Prop :=
  b.type ≠ .null →
    (b.type = .simple → b.pseudoOuts.length = inputs) ∧
      b.ecdhInfo.length = outputs ∧ b.outPk.length = outputs

def RctSigPrunable.RangeProofsWellFormed (t : RctType) (outputs : ℕ) (p : RctSigPrunable) : Prop :=
  if t.isBulletproofPlus then
    p.bulletproofsPlus.length ≤ outputs ∧ outputs ≤ nBulletproofPlusMaxAmounts p.bulletproofsPlus
  else if t.isBulletproof then
    p.bulletproofs.length ≤ outputs ∧ outputs ≤ nBulletproofMaxAmounts p.bulletproofs
  else p.rangeSigs.length = outputs

def RctSigPrunable.RingSignaturesWellFormed (t : RctType) (inputs mixin : ℕ) (p : RctSigPrunable) :
    Prop :=
  if t.isClsag then p.CLSAGs.length = inputs ∧ ∀ s ∈ p.CLSAGs, s.s.length = mixin + 1
  else
    p.MGs.length = (if t.mgPerInput then inputs else 1) ∧
      ∀ s ∈ p.MGs, s.ss.length = mixin + 1 ∧
        ∀ row ∈ s.ss, row.length = (if t.mgPerInput then 1 else inputs) + 1

structure RctSigPrunable.WellFormed (t : RctType) (inputs outputs mixin : ℕ) (p : RctSigPrunable) :
    Prop where
  inputs_lt : inputs < 0xffffffff
  outputs_lt : outputs < 0xffffffff
  mixin_lt : mixin < 0xffffffff
  rangeProofs : p.RangeProofsWellFormed t outputs
  ringSignatures : p.RingSignaturesWellFormed t inputs mixin
  pseudoOuts : t.isBulletproof || t.isBulletproofPlus → p.pseudoOuts.length = inputs

def RctSig.WellFormed (inputs outputs mixin : ℕ) (s : RctSig) : Prop :=
  s.toRctSigBase.WellFormed inputs outputs ∧
    (s.type ≠ .null → s.p.WellFormed s.type inputs outputs mixin)

theorem valid_many_key (n : ℕ) (l : List Key) : (many n key).valid l = true ↔ l.length = n := by
  rw [valid_many]
  exact and_iff_left fun _ _ => rfl

@[simp] theorem valid_key (k : Key) : key.valid k = true := rfl

theorem valid_keys_if (b : Prop) [Decidable b] (n : ℕ) (l : List Key) :
    (if b then many n key else absent []).valid l = true ↔ (b → l.length = n) := by
  by_cases h : b
  · simp [h, valid_many_key]
  · simp [h, absent]

theorem valid_body_null (inputs outputs : ℕ) (b : RctSigBase) (h : b.type = .null) :
    (rctSigBaseBody inputs outputs b.type).valid b = true := by
  simp [rctSigBaseBody, h, inject, absent]

theorem valid_body (inputs outputs : ℕ) (b : RctSigBase) (h : b.type ≠ .null) :
    (rctSigBaseBody inputs outputs b.type).valid b = true ↔
      (b.type = .simple → b.pseudoOuts.length = inputs) ∧
        b.ecdhInfo.length = outputs ∧ b.outPk.length = outputs := by
  have hpseudo := valid_keys_if (b.type = .simple) inputs b.pseudoOuts
  have hecdh : (many outputs (if b.type.shortEcdh then shortEcdhTuple else ecdhTuple)).valid b.ecdhInfo
      = true ↔ b.ecdhInfo.length = outputs := by
    rw [valid_many]
    refine and_iff_left fun e _ => ?_
    split <;> rfl
  have hout : (many outputs outPkMask).valid b.outPk = true ↔ b.outPk.length = outputs := by
    rw [valid_many]
    exact and_iff_left fun _ _ => rfl
  rw [← hpseudo, ← hecdh, ← hout]
  simp only [rctSigBaseBody, if_neg h, inject, if_true, Option.elim_some, seq, dep, valid_varint64,
    Bool.true_and, Bool.and_eq_true]

theorem valid_rctSigBase (inputs outputs : ℕ) (b : RctSigBase) :
    (rctSigBase inputs outputs).valid b = true ↔ b.WellFormed inputs outputs := by
  have hiff : (rctSigBase inputs outputs).valid b = true ↔
      (rctSigBaseBody inputs outputs b.type).valid b = true := by
    simp only [rctSigBase, tagged, view, andThen, dep, valid_rctType, Bool.true_and]
  rw [hiff]
  by_cases h : b.type = .null
  · exact iff_of_true (valid_body_null inputs outputs b h) fun hne => absurd h hne
  · rw [valid_body inputs outputs b h, RctSigBase.WellFormed]
    exact ⟨fun hv _ => hv, fun hv => hv h⟩

theorem ne_zero_of_sumAmounts {n : ℕ} {l : List ℕ} (h : 0 < sumAmounts n l) : ∀ k ∈ l, k ≠ 0 := by
  induction l generalizing n with
  | nil => simp
  | cons n2 rest ih =>
    rw [sumAmounts] at h
    split at h
    · omega
    split at h
    · omega
    · rename_i hne
      intro k hk
      rcases List.mem_cons.mp hk with rfl | hk
      · exact hne
      · exact ih h k hk

theorem sizes_of_maxAmountsBase {l r m : ℕ} (h : nBulletproofMaxAmountsBase l r m ≠ 0) :
    6 ≤ l ∧ l ≤ 10 ∧ l = r := by
  simp only [nBulletproofMaxAmountsBase] at h
  split_ifs at h
  · omega
  all_goals omega

theorem valid_sides {l r : List Key} {m : ℕ} (h : nBulletproofMaxAmountsBase l.length r.length m ≠ 0) :
    keyV.valid l = true ∧ keyV.valid r = true ∧ l ≠ [] ∧ l.length = r.length := by
  have hkeys : ∀ l : List Key, l.length ≤ 10 → keyV.valid l = true := fun l hlen => by
    have hlt : l.length < 2 ^ 64 := by omega
    simpa [keyV, container, blob] using hlt
  obtain ⟨hle, hge, heq⟩ := sizes_of_maxAmountsBase h
  exact ⟨hkeys l hge, hkeys r (by omega), List.ne_nil_of_length_pos (by omega), heq⟩

theorem valid_bulletproof {p : Bulletproof} (h : p.maxAmounts ≠ 0) : bulletproof.valid p = true := by
  obtain ⟨hL, hR, hne, heq⟩ := valid_sides h
  simp [bulletproof, filter, bulletproofFields, view, seq, dep, hL, hR, Bulletproof.sizesOk, hne, heq,
    key, blob]

theorem valid_bulletproofPlus {p : BulletproofPlus} (h : p.maxAmounts ≠ 0) :
    bulletproofPlus.valid p = true := by
  obtain ⟨hL, hR, hne, heq⟩ := valid_sides h
  simp [bulletproofPlus, filter, bulletproofPlusFields, view, seq, dep, hL, hR,
    BulletproofPlus.sizesOk, hne, heq, key, blob]

variable {outputs : ℕ}

theorem valid_proofs {α : Type} {c : Codec α} {maxAmounts : α → ℕ} (hc : ∀ {p}, maxAmounts p ≠ 0 → c.valid p = true)
    (cnt : Codec UInt32) [Exact cnt] (hcnt : ∀ n, cnt.valid n = true) (hout : outputs < 0xffffffff)
    (l : List α) :
    (counted cnt outputs c).valid l = true ∧ outputs ≤ sumAmounts 0 (l.map maxAmounts) ↔
      l.length ≤ outputs ∧ outputs ≤ sumAmounts 0 (l.map maxAmounts) := by
  rw [valid_counted cnt hcnt (by omega : outputs < 2 ^ 32)]
  refine and_congr_left fun hmax => and_iff_left_of_imp fun hle p hp => ?_
  have hpos : 0 < l.length := List.length_pos_of_mem hp
  have hsum : 0 < sumAmounts 0 (l.map maxAmounts) := by omega
  exact hc (ne_zero_of_sumAmounts hsum _ (List.mem_map_of_mem hp))

theorem valid_bulletproofs (cnt : Codec UInt32) [Exact cnt] (hcnt : ∀ n, cnt.valid n = true)
    (hout : outputs < 0xffffffff) (l : List Bulletproof) :
    (bulletproofs cnt outputs).valid l = true ↔
      l.length ≤ outputs ∧ outputs ≤ nBulletproofMaxAmounts l := by
  simp only [bulletproofs, filter, Bool.and_eq_true, decide_eq_true_eq]
  exact valid_proofs valid_bulletproof cnt hcnt hout l

theorem valid_bulletproofsPlus (hout : outputs < 0xffffffff) (l : List BulletproofPlus) :
    (bulletproofsPlus outputs).valid l = true ↔
      l.length ≤ outputs ∧ outputs ≤ nBulletproofPlusMaxAmounts l := by
  simp only [bulletproofsPlus, filter, Bool.and_eq_true, decide_eq_true_eq]
  exact valid_proofs valid_bulletproofPlus varint32 valid_varint32 hout l

theorem valid_rangeProofs (t : RctType) (hout : outputs < 0xffffffff)
    (p : RctSigPrunable) :
    (rangeProofs t outputs).valid (p.rangeSigs, p.bulletproofs, p.bulletproofsPlus) = true ↔
      p.RangeProofsWellFormed t outputs := by
  rw [rangeProofs, RctSigPrunable.RangeProofsWellFormed]
  split_ifs
  · simp [seq, dep, absent, valid_bulletproofsPlus hout]
  · simp [seq, dep, absent, valid_bulletproofs uint32 (fun _ => rfl) hout]
  · simp [seq, dep, absent, valid_bulletproofs varint32 valid_varint32 hout]
  · simp [seq, dep, absent, valid_many, rangeSig, boroSig, view, key, blob]

theorem valid_ringSignatures (t : RctType) (inputs mixin : ℕ) (p : RctSigPrunable) :
    (ringSignatures t inputs mixin).valid (p.MGs, p.CLSAGs) = true ↔
      p.RingSignaturesWellFormed t inputs mixin := by
  rw [ringSignatures, RctSigPrunable.RingSignaturesWellFormed]
  split
  · simp only [seq, dep, absent, Bool.true_and, valid_many inputs]
    refine and_congr_right' (forall₂_congr fun s _ => ?_)
    simp only [clsag, view, seq, dep, valid_key, Bool.and_true, valid_many_key]
  · simp only [seq, dep, absent, Bool.and_true, valid_many (if t.mgPerInput then inputs else 1)]
    refine and_congr_right' (forall₂_congr fun s _ => ?_)
    simp only [mgSig, view, seq, dep, valid_key, Bool.and_true, valid_many (mixin + 1)]
    exact and_congr_right' (forall₂_congr fun row _ => valid_many_key _ row)

theorem valid_rctSigPrunable {t : RctType} (ht : t ≠ .null) (inputs outputs mixin : ℕ)
    (p : RctSigPrunable) :
    (rctSigPrunable t inputs outputs mixin).valid p = true ↔ p.WellFormed t inputs outputs mixin := by
  rw [rctSigPrunable]
  by_cases hi : inputs ≥ 0xffffffff
  · exact iff_of_false (by simp [hi, fail]) fun h => absurd h.inputs_lt (by omega)
  by_cases ho : outputs ≥ 0xffffffff
  · exact iff_of_false (by simp [hi, ho, fail]) fun h => absurd h.outputs_lt (by omega)
  by_cases hm : mixin ≥ 0xffffffff
  · exact iff_of_false (by simp [hi, ho, hm, fail]) fun h => absurd h.mixin_lt (by omega)
  rw [if_neg hi, if_neg ho, if_neg hm, if_neg ht]
  simp only [view, seq, dep, Bool.and_eq_true, valid_rangeProofs t (by omega : outputs < 0xffffffff),
    valid_ringSignatures, valid_keys_if]
  constructor
  · rintro ⟨h₁, h₂, h₃⟩
    exact ⟨by omega, by omega, by omega, h₁, h₂, h₃⟩
  · exact fun h => ⟨h.rangeProofs, h.ringSignatures, h.pseudoOuts⟩

theorem valid_rctSig (inputs outputs mixin : ℕ) (s : RctSig) :
    (rctSig false inputs outputs mixin).valid s = true ↔ s.WellFormed inputs outputs mixin := by
  simp only [rctSig, view, dep, Bool.and_eq_true, Bool.false_or, decide_eq_true_eq, valid_rctSigBase,
    RctSig.WellFormed]
  refine and_congr_right' ?_
  split_ifs with hn
  · simp [absent, hn]
  · rw [valid_rctSigPrunable hn]
    exact ⟨fun h _ => h, fun h => h hn⟩

theorem kept_many_of_length {α : Type} {n : ℕ} (c : Codec α) {l : List α} (h : l.length = n) :
    (many n c).kept l = l.map c.kept := by
  rw [← h, kept_many]

theorem kept_keys_if (b : Prop) [Decidable b] (n : ℕ) (l : List Key) :
    (if b then many n key else absent []).kept l = if b then l else [] := by
  by_cases h : b
  · simp [h, Exact.kept_eq]
  · simp [h, absent]

theorem kept_rctSigBase {inputs : ℕ} {b : RctSigBase} (h : b.WellFormed inputs outputs) :
    (rctSigBase inputs outputs).kept b = b.serialised := by
  show (rctSigBaseBody inputs outputs b.type).kept b = b.serialised
  by_cases ht : b.type = .null
  · simp [rctSigBaseBody, RctSigBase.serialised, ht, inject]
  · obtain ⟨-, hecdh, hout⟩ := h ht
    simp only [rctSigBaseBody, RctSigBase.serialised, if_neg ht, inject, if_true, Option.elim_some, seq,
      dep, kept_keys_if, kept_many_of_length _ hecdh, kept_many_of_length _ hout, Exact.kept_eq]
    congr 1
    refine List.map_congr_left fun e _ => ?_
    split <;> rfl

theorem kept_bulletproofs (cnt : Codec UInt32) [Exact cnt] {l : List Bulletproof}
    (h : (bulletproofs cnt outputs).valid l = true) :
    (bulletproofs cnt outputs).kept l = l.map ({ · with V := [] }) := by
  have hv := (Bool.and_eq_true_iff.mp h).1
  rw [bulletproofs, filter, kept_counted _ _ hv]
  exact List.map_congr_left fun p _ => kept_bulletproof p

theorem kept_bulletproofsPlus {l : List BulletproofPlus}
    (h : (bulletproofsPlus outputs).valid l = true) :
    (bulletproofsPlus outputs).kept l = l.map ({ · with V := [] }) := by
  have hv := (Bool.and_eq_true_iff.mp h).1
  rw [bulletproofsPlus, filter, kept_counted _ _ hv]
  exact List.map_congr_left fun p _ => kept_bulletproofPlus p

instance : Exact boroSig := exact_view fun _ => rfl

instance : Exact rangeSig := exact_view fun _ => rfl

instance (mixin : ℕ) : Exact (clsag mixin) := exact_view fun _ => rfl

instance (mixin rows : ℕ) : Exact (mgSig mixin rows) := exact_view fun _ => rfl

theorem kept_rangeProofs {t : RctType} (hout : outputs < 0xffffffff) {p : RctSigPrunable}
    (h : p.RangeProofsWellFormed t outputs) :
    (rangeProofs t outputs).kept (p.rangeSigs, p.bulletproofs, p.bulletproofsPlus) =
      ((p.serialised t).rangeSigs, (p.serialised t).bulletproofs, (p.serialised t).bulletproofsPlus) := by
  have hv := (valid_rangeProofs t hout p).mpr h
  cases t <;> simp_all [rangeProofs, RctSigPrunable.serialised, RctType.isBulletproof,
    RctType.isBulletproofPlus, seq, dep, absent, Exact.kept_eq, kept_bulletproofs,
    kept_bulletproofsPlus]

theorem kept_ringSignatures (t : RctType) (inputs mixin : ℕ) (p : RctSigPrunable) :
    (ringSignatures t inputs mixin).kept (p.MGs, p.CLSAGs) =
      ((p.serialised t).MGs, (p.serialised t).CLSAGs) := by
  by_cases h : t.isClsag
  · simp [ringSignatures, RctSigPrunable.serialised, h, seq, dep, absent, Exact.kept_eq]
  · simp [ringSignatures, RctSigPrunable.serialised, h, seq, dep, absent, Exact.kept_eq]

theorem kept_rctSigPrunable {t : RctType} (ht : t ≠ .null) {inputs mixin : ℕ}
    {p : RctSigPrunable} (h : p.WellFormed t inputs outputs mixin) :
    (rctSigPrunable t inputs outputs mixin).kept p = p.serialised t := by
  have hi : ¬ inputs ≥ 0xffffffff := not_le.mpr h.inputs_lt
  have ho : ¬ outputs ≥ 0xffffffff := not_le.mpr h.outputs_lt
  have hm : ¬ mixin ≥ 0xffffffff := not_le.mpr h.mixin_lt
  simp only [rctSigPrunable, if_neg hi, if_neg ho, if_neg hm, if_neg ht, view, seq, dep,
    kept_rangeProofs h.outputs_lt h.rangeProofs, kept_ringSignatures, kept_keys_if]
  rfl

theorem kept_rctSig {inputs mixin : ℕ} {s : RctSig} (h : s.WellFormed inputs outputs mixin) :
    (rctSig false inputs outputs mixin).kept s = s.serialised := by
  simp only [rctSig, view, dep, kept_rctSigBase h.1, Bool.false_or, decide_eq_true_eq, RctSig.serialised]
  split_ifs with hn
  · rfl
  · rw [kept_rctSigPrunable hn (h.2 hn)]

end Velkavo.Rct
