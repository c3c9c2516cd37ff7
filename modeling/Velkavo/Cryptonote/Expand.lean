import Velkavo.Cryptonote.WellFormed

namespace Velkavo.Rct

@[simp] theorem type_serialised (b : RctSigBase) : b.serialised.type = b.type := by
  by_cases h : b.type = .null
  · rw [RctSigBase.serialised, if_pos h, h]
    rfl
  · rw [RctSigBase.serialised, if_neg h]

theorem base_wellFormed_serialised (inputs outputs : ℕ) (b : RctSigBase) :
    b.serialised.WellFormed inputs outputs ↔ b.WellFormed inputs outputs := by
  by_cases h : b.type = .null
  · exact iff_of_true (fun hne => absurd (by simpa using h) hne) fun hne => absurd h hne
  · simp only [RctSigBase.WellFormed, type_serialised]
    refine imp_congr_right fun hne => ?_
    simp only [RctSigBase.serialised, if_neg hne, List.length_map]
    refine and_congr_left fun _ => imp_congr_right fun hs => ?_
    rw [if_pos hs]

theorem prunable_wellFormed_serialised (t : RctType) (inputs outputs mixin : ℕ) (p : RctSigPrunable) :
    (p.serialised t).WellFormed t inputs outputs mixin ↔ p.WellFormed t inputs outputs mixin := by
  have hplus := maxAmountsPlus_kept p.bulletproofsPlus
  have hbp := maxAmounts_kept p.bulletproofs
  simp only [show bulletproofPlus.kept = fun q => { q with V := [] } from funext kept_bulletproofPlus,
    show bulletproof.kept = fun q => { q with V := [] } from funext kept_bulletproof] at hplus hbp
  have hproofs : (p.serialised t).RangeProofsWellFormed t outputs ↔ p.RangeProofsWellFormed t outputs := by
    cases t <;> simp [RctSigPrunable.RangeProofsWellFormed, RctSigPrunable.serialised,
      RctType.isBulletproof, RctType.isBulletproofPlus, hplus, hbp]
  have hrings : (p.serialised t).RingSignaturesWellFormed t inputs mixin ↔
      p.RingSignaturesWellFormed t inputs mixin := by
    by_cases h : t.isClsag <;>
      simp [RctSigPrunable.RingSignaturesWellFormed, RctSigPrunable.serialised, h]
  have hpseudo : (t.isBulletproof || t.isBulletproofPlus → (p.serialised t).pseudoOuts.length = inputs) ↔
      (t.isBulletproof || t.isBulletproofPlus → p.pseudoOuts.length = inputs) :=
    imp_congr_right fun h => by simp only [RctSigPrunable.serialised, if_pos h]
  constructor
  · rintro ⟨hi, ho, hm, h₁, h₂, h₃⟩
    exact ⟨hi, ho, hm, hproofs.mp h₁, hrings.mp h₂, hpseudo.mp h₃⟩
  · rintro ⟨hi, ho, hm, h₁, h₂, h₃⟩
    exact ⟨hi, ho, hm, hproofs.mpr h₁, hrings.mpr h₂, hpseudo.mpr h₃⟩

theorem wellFormed_serialised (inputs outputs mixin : ℕ) (s : RctSig) :
    s.serialised.WellFormed inputs outputs mixin ↔ s.WellFormed inputs outputs mixin := by
  refine and_congr (base_wellFormed_serialised inputs outputs _) ?_
  simp only [RctSig.serialised, type_serialised]
  refine imp_congr_right fun hne => ?_
  rw [if_neg hne, prunable_wellFormed_serialised]

end Velkavo.Rct

namespace Velkavo.Cryptonote

open ByteCodec ByteCodec.Codec Rct

theorem expectedSignatures_idem (vin : List Txin) (l : List (List Signature)) :
    expectedSignatures vin (expectedSignatures vin l) = expectedSignatures vin l := by
  cases l with
  | cons s l => rfl
  | nil => cases vin <;> rfl

theorem wellFormed_serialised (tx : Transaction) : tx.serialised.WellFormed ↔ tx.WellFormed := by
  have hsig : tx.version = 1 → expectedSignatures tx.vin tx.serialised.signatures =
      expectedSignatures tx.vin tx.signatures := by
    intro hv
    simp only [Transaction.serialised, if_pos hv, expectedSignatures_idem]
  have hrct : tx.version = 2 → tx.vin ≠ [] →
      tx.serialised.rctSignatures = tx.rctSignatures.serialised := by
    intro hv hne
    simp [Transaction.serialised, hv, hne]
  constructor
  · rintro ⟨hpre, hs, hr⟩
    refine ⟨hpre, fun hv => ?_, fun hv hne => ?_⟩
    · rw [← hsig hv]; exact hs hv
    · rw [← Rct.wellFormed_serialised, ← hrct hv hne]; exact hr hv hne
  · rintro ⟨hpre, hs, hr⟩
    refine ⟨hpre, fun hv => ?_, fun hv hne => ?_⟩
    · exact (congrArg (List.map List.length) (hsig hv)).trans (hs hv)
    · rw [hrct hv hne]; exact (Rct.wellFormed_serialised _ _ _ _).mpr (hr hv hne)

variable {outPk : List CtKey} {vout : List TxOut} {rv rv' : RctSig} {smul : Key → Key} {baseOnly : Bool}

theorem fillDest_masks {outPk' : List CtKey} (hl : outPk.length = vout.length)
    (h : fillDest outPk vout = some outPk') :
    outPk'.map CtKey.mask = outPk.map CtKey.mask ∧ ∀ out ∈ vout, (getOutputPublicKey out).isSome := by
  induction outPk generalizing vout outPk' with
  | nil =>
    have hv : vout = [] := List.length_eq_zero_iff.mp hl.symm
    simp only [fillDest, Option.some.injEq] at h
    simp [← h, hv]
  | cons k outPk ih =>
    cases vout with
    | nil => simp at hl
    | cons out vout =>
      simp only [fillDest, Option.bind_eq_bind, Option.bind_eq_some_iff, Option.pure_def,
        Option.some.injEq] at h
      obtain ⟨key, hkey, rest, hrest, rfl⟩ := h
      obtain ⟨hm, hall⟩ := ih (by simpa using hl) hrest
      refine ⟨by simp [hm], List.forall_mem_cons.mpr ⟨by simp [hkey], hall⟩⟩

theorem fillDest_isSome
    (h : ∀ out ∈ vout, (getOutputPublicKey out).isSome) : (fillDest outPk vout).isSome := by
  induction outPk generalizing vout with
  | nil => rfl
  | cons k outPk ih =>
    cases vout with
    | nil => rfl
    | cons out vout =>
      obtain ⟨hout, hvout⟩ := List.forall_mem_cons.mp h
      obtain ⟨key, hkey⟩ := Option.isSome_iff_exists.mp hout
      obtain ⟨rest, hrest⟩ := Option.isSome_iff_exists.mp (ih hvout)
      simp [fillDest, hkey, hrest]

theorem serialised_dest (rv : RctSig)
    (h : outPk.map CtKey.mask = rv.outPk.map CtKey.mask) :
    RctSig.serialised { rv with outPk := outPk } = rv.serialised := by
  have hmap : outPk.map (fun k => (⟨Blob.zero 32, k.mask⟩ : CtKey)) =
      rv.outPk.map fun k => ⟨Blob.zero 32, k.mask⟩ := by
    simpa only [List.map_map, Function.comp_def] using
      congrArg (List.map fun mask => (⟨Blob.zero 32, mask⟩ : CtKey)) h
  simp only [RctSig.serialised, RctSigBase.serialised, hmap]

theorem expandProofs_serialised {outputs : ℕ}
    (h : expandProofs smul outputs rv = some rv') :
    rv'.serialised = rv.serialised ∧ rv'.toRctSigBase = rv.toRctSigBase := by
  unfold expandProofs at h
  split_ifs at h with hplus hbp
  · split at h
    · rename_i proof hp
      split_ifs at h
      obtain rfl := Option.some.inj h
      simp [RctSig.serialised, RctSigPrunable.serialised, hp]
    · simp at h
  · split at h
    · rename_i proof hp
      split_ifs at h
      obtain rfl := Option.some.inj h
      simp [RctSig.serialised, RctSigPrunable.serialised, hp]
    · simp at h
  · obtain rfl := Option.some.inj h
    exact ⟨rfl, rfl⟩

theorem expandRctSig_cases
    (h : expandRctSig smul vout baseOnly rv = some rv') :
    rv.type = .null ∧ rv' = rv ∨
      rv.type ≠ .null ∧ rv.outPk.length = vout.length ∧ ∃ outPk, fillDest rv.outPk vout = some outPk ∧
        (if baseOnly then some { rv with outPk := outPk }
          else expandProofs smul vout.length { rv with outPk := outPk }) = some rv' := by
  unfold expandRctSig at h
  by_cases hnull : rv.type = .null
  · rw [if_pos hnull] at h
    exact .inl ⟨hnull, (Option.some.inj h).symm⟩
  · by_cases hl : rv.outPk.length = vout.length
    · rw [if_neg hnull, if_neg (not_not.mpr hl)] at h
      exact .inr ⟨hnull, hl, Option.bind_eq_some_iff.mp h⟩
    · rw [if_neg hnull, if_pos hl] at h
      simp at h

theorem expandRctSig_serialised
    (h : expandRctSig smul vout baseOnly rv = some rv') : rv'.serialised = rv.serialised := by
  obtain ⟨-, rfl⟩ | ⟨-, hl, outPk, hfill, h⟩ := expandRctSig_cases h
  · rfl
  · have hdest := serialised_dest rv (fillDest_masks hl hfill).1
    split at h
    · rw [← Option.some.inj h, hdest]
    · rw [(expandProofs_serialised h).1, hdest]

theorem serialised_expand {tx tx' : Transaction}
    (h : expandTransaction1 smul tx baseOnly = some tx') :
    tx'.serialised = tx.serialised ∧ tx'.pruned = tx.pruned := by
  unfold expandTransaction1 at h
  split at h
  · obtain ⟨rv, hrv, rfl⟩ := Option.map_eq_some_iff.mp h
    simp [Transaction.serialised, expandRctSig_serialised hrv]
  · obtain rfl := Option.some.inj h
    exact ⟨rfl, rfl⟩

theorem expandRctSig_base {base : RctSig}
    (hbase : base.toRctSigBase = rv.toRctSigBase) (h : expandRctSig smul vout false rv = some rv') :
    ∃ base', expandRctSig smul vout true base = some base' ∧ base'.toRctSigBase = rv'.toRctSigBase := by
  obtain ⟨hnull, rfl⟩ | ⟨hnull, hl, outPk, hfill, h⟩ := expandRctSig_cases h
  · exact ⟨base, by simp [expandRctSig, hbase, hnull], hbase⟩
  · refine ⟨{ base with outPk := outPk }, by simp [expandRctSig, hbase, hnull, hl, hfill], ?_⟩
    have hproofs := (expandProofs_serialised h).2
    simp only [hproofs, hbase]

theorem expand_base {tx tx' base : Transaction}
    (hpre : base.toTransactionPrefix = tx.toTransactionPrefix)
    (hrct : base.rctSignatures.toRctSigBase = tx.rctSignatures.toRctSigBase)
    (h : expandTransaction1 smul tx false = some tx') :
    ∃ base', expandTransaction1 smul base true = some base' ∧
      base'.toTransactionPrefix = tx'.toTransactionPrefix ∧
      base'.rctSignatures.toRctSigBase = tx'.rctSignatures.toRctSigBase := by
  have hcoin : isCoinbase base = isCoinbase tx := by simp only [isCoinbase, hpre]
  unfold expandTransaction1 at h ⊢
  rw [hcoin, hpre]
  split at h
  · rename_i hver
    obtain ⟨rv, hrv, rfl⟩ := Option.map_eq_some_iff.mp h
    obtain ⟨rv', hrv', hb⟩ := expandRctSig_base hrct hrv
    refine ⟨{ base with toTransactionPrefix := tx.toTransactionPrefix, rctSignatures := rv' }, ?_, rfl, hb⟩
    rw [if_pos hver, hrv']
    rfl
  · rename_i hver
    obtain rfl := Option.some.inj h
    exact ⟨base, if_neg hver, hpre, hrct⟩

end Velkavo.Cryptonote
