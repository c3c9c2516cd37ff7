import Velkavo.Ringct.ProofLengths
import Velkavo.Cryptonote.BlobRoundTrip

namespace Velkavo.Rct.Lengths

open Effects.Traced

@[simp] theorem result_shiftOne (amount : ℕ) : (shiftOne amount).result = some (1 <<< amount) := rfl

@[simp] theorem result_maxAmountsBase (l r m : ℕ) :
    (nBulletproofMaxAmountsBase l r m).result = some (Rct.nBulletproofMaxAmountsBase l r m) := by
  simp only [nBulletproofMaxAmountsBase, Rct.nBulletproofMaxAmountsBase]
  split_ifs <;> rfl

theorem within_maxAmounts (proofs : List Bulletproof) (proofsPlus : List BulletproofPlus) :
    Within Access.InRange (nBulletproofMaxAmounts proofs) (fun _ => True) ∧
      Within Access.InRange (nBulletproofPlusMaxAmounts proofsPlus) fun _ => True :=
  ⟨(within_sumAmounts (fun _ _ => within_maxAmountsBase _ _ _) 0).mono fun _ _ => trivial,
    (within_sumAmounts (fun _ _ => within_maxAmountsBase _ _ _) 0).mono fun _ _ => trivial⟩

end Velkavo.Rct.Lengths

namespace Velkavo.Cryptonote.Lengths

open ByteCodec ByteCodec.Codec Effects.Traced Rct Rct.Lengths

def expandProofs (scalarmultInvEight : Key → Key) (outputs : ℕ) (rv : RctSig) : Run RctSig :=
  let V := rv.outPk.map fun k => scalarmultInvEight k.mask
  if rv.type.isBulletproofPlus then
    match rv.p.bulletproofsPlus with
    | [proof] =>
      if proof.L.length < 6 then ofOption none
      else do
        let maxOutputs ← maxAmountsPlus proof
        require (¬ maxOutputs < outputs)
        pure { rv with p := { rv.p with bulletproofsPlus := [{ proof with V := V }] } }
    | _ => ofOption none
  else if rv.type.isBulletproof then
    match rv.p.bulletproofs with
    | [proof] =>
      if proof.L.length < 6 then ofOption none
      else do
        let maxOutputs ← shiftOne (proof.L.length - 6)
        require (¬ maxOutputs < outputs)
        pure { rv with p := { rv.p with bulletproofs := [{ proof with V := V }] } }
    | _ => ofOption none
  else pure rv

def expandRctSig (scalarmultInvEight : Key → Key) (vout : List TxOut) (rv : RctSig) : Run RctSig :=
  if rv.type = .null then pure rv
  else if rv.outPk.length ≠ vout.length then ofOption none
  else do
    let outPk ← ofOption (fillDest rv.outPk vout)
    expandProofs scalarmultInvEight vout.length { rv with outPk := outPk }

def expandTransaction1 (scalarmultInvEight : Key → Key) (tx : Transaction) : Run Transaction :=
  if tx.version ≥ 2 && !isCoinbase tx then do
    let rv ← expandRctSig scalarmultInvEight tx.vout tx.rctSignatures
    pure { tx with rctSignatures := rv }
  else pure tx

def parseAndValidateTxFromBlob (scalarmultInvEight : Key → Key) (blob : Bytes) : Run Transaction := do
  let tx ← ofOption (readAll (transaction false) .accept blob)
  expandTransaction1 scalarmultInvEight tx

variable {smul : Key → Key}

theorem result_expandProofs (outputs : ℕ) (rv : RctSig) :
    (expandProofs smul outputs rv).result = Cryptonote.expandProofs smul outputs rv := by
  have hcheck : ∀ {m : Run ℕ} {n : ℕ} (rv' : RctSig), m.result = some n →
      (do let maxOutputs ← m; require (¬ maxOutputs < outputs); pure rv' : Run RctSig).result =
        if n < outputs then none else some rv' := by
    intro m n rv' hm
    rw [result_bind, hm, Option.bind_some, result_bind, result_require]
    by_cases h : n < outputs
    · rw [if_neg (not_not.mpr h), if_pos h]
      rfl
    · rw [if_pos h, if_neg h]
      rfl
  unfold expandProofs Cryptonote.expandProofs
  by_cases hplus : rv.type.isBulletproofPlus
  · rw [if_pos hplus, if_pos hplus]
    rcases rv.p.bulletproofsPlus with _ | ⟨proof, _ | ⟨_, _⟩⟩
    · rfl
    · by_cases hL : proof.L.length < 6
      · simp only [if_pos hL, result_ofOption]
      · simp only [if_neg hL]
        exact hcheck _ (result_maxAmountsBase _ _ _)
    · rfl
  · rw [if_neg hplus, if_neg hplus]
    by_cases hplain : rv.type.isBulletproof
    · rw [if_pos hplain, if_pos hplain]
      rcases rv.p.bulletproofs with _ | ⟨proof, _ | ⟨_, _⟩⟩
      · rfl
      · by_cases hL : proof.L.length < 6
        · simp only [if_pos hL, result_ofOption]
        · simp only [if_neg hL]
          exact hcheck _ (result_shiftOne _)
      · rfl
    · rw [if_neg hplain, if_neg hplain]
      rfl

theorem result_expandRctSig (vout : List TxOut) (rv : RctSig) :
    (expandRctSig smul vout rv).result = Cryptonote.expandRctSig smul vout false rv := by
  unfold expandRctSig Cryptonote.expandRctSig
  by_cases hnull : rv.type = .null
  · rw [if_pos hnull, if_pos hnull]
    rfl
  · by_cases hlen : rv.outPk.length = vout.length
    · rw [if_neg hnull, if_neg hnull, if_neg (not_not.mpr hlen), if_neg (not_not.mpr hlen), result_bind,
        result_ofOption]
      exact congrArg _ (funext fun outPk => result_expandProofs _ _)
    · rw [if_neg hnull, if_neg hnull, if_pos hlen, if_pos hlen]
      rfl

theorem result_expandTransaction1 (tx : Transaction) :
    (expandTransaction1 smul tx).result = Cryptonote.expandTransaction1 smul tx false := by
  unfold expandTransaction1 Cryptonote.expandTransaction1
  split_ifs
  · rw [result_bind, result_expandRctSig, Option.map_eq_bind]
    rfl
  · rfl

theorem result_parse (blob : Bytes) :
    (parseAndValidateTxFromBlob smul blob).result = Cryptonote.parseAndValidateTxFromBlob smul blob := by
  rw [parseAndValidateTxFromBlob, result_bind]
  change (readAll (transaction false) .accept blob).bind _ = _
  exact congrArg _ (funext fun tx => result_expandTransaction1 tx)

theorem rctSig_of_read {p : AtEnd} {blob rest : Bytes} {tx : Transaction}
    (h : (transaction false).read p blob = some (tx, rest)) :
    tx.rctSignatures = default ∨ tx.version = 2 ∧ tx.vin ≠ [] := by
  obtain ⟨⟨pre, signatures, rct⟩, hread, rfl⟩ := read_view_eq_some.mp h
  obtain ⟨mid, hpre, hbody⟩ := read_andThen_eq_some.mp hread
  have hver := ((valid_transactionPrefix pre).mp (transactionPrefix.valid_of_read hpre)).version_eq
  unfold transactionBody at hbody
  split_ifs at hbody with hone hvin
  · obtain ⟨_, -, hrct⟩ := read_seq_eq_some.mp hbody
    exact .inl (by cases hrct; rfl)
  · obtain ⟨_, -, hrct⟩ := read_seq_eq_some.mp hbody
    exact .inl (by cases hrct; rfl)
  · exact .inr ⟨hver.resolve_left hone, by simpa using hvin⟩

theorem noProofs_of_wellFormed {rv : RctSig} {inputs outputs mixin : ℕ} (h : rv.WellFormed inputs outputs mixin) :
    NoProofsWithoutOutputs rv := by
  intro hzero
  by_cases hnull : rv.type = .null
  · rw [hnull]
    exact ⟨fun h => absurd h (by decide), fun h => absurd h (by decide)⟩
  · have hout : outputs = 0 := ((h.1 hnull).2.2).symm.trans hzero
    have hproofs := (h.2 hnull).rangeProofs
    rw [RctSigPrunable.RangeProofsWellFormed, hout] at hproofs
    constructor
    · intro hplus
      rw [if_pos hplus] at hproofs
      exact List.length_eq_zero_iff.mp (Nat.le_zero.mp hproofs.1)
    · intro hplain
      have hplus : ¬ rv.type.isBulletproofPlus = true := by
        revert hplain
        cases rv.type <;> decide
      rw [if_neg hplus, if_pos hplain] at hproofs
      exact List.length_eq_zero_iff.mp (Nat.le_zero.mp hproofs.1)

theorem expand_of_null {tx tx' : Transaction} (hnull : tx.rctSignatures.type = .null)
    (h : Cryptonote.expandTransaction1 smul tx false = some tx') : tx' = tx := by
  unfold Cryptonote.expandTransaction1 Cryptonote.expandRctSig at h
  rw [if_pos hnull, Option.map_some] at h
  split_ifs at h
  · exact (Option.some.inj h).symm
  · exact (Option.some.inj h).symm

theorem noProofs_of_parse {blob : Bytes} {tx : Transaction}
    (h : Cryptonote.parseAndValidateTxFromBlob smul blob = some tx) : NoProofsWithoutOutputs tx.rctSignatures := by
  simp only [Cryptonote.parseAndValidateTxFromBlob, Option.bind_eq_bind, Option.bind_eq_some_iff] at h
  obtain ⟨tx₀, hread, hexp⟩ := h
  rw [readAll_eq_some] at hread
  have hwf₀ : tx₀.WellFormed := (valid_transaction tx₀).mp ((transaction false).valid_of_read hread)
  obtain ⟨hser, -⟩ := serialised_expand hexp
  have hwf : tx.WellFormed := by
    rw [← wellFormed_serialised, hser, wellFormed_serialised]
    exact hwf₀
  have hpre : tx.serialised.toTransactionPrefix = tx₀.serialised.toTransactionPrefix := by rw [hser]
  change tx.toTransactionPrefix = tx₀.toTransactionPrefix at hpre
  obtain hdefault | ⟨hver, hvin⟩ := rctSig_of_read hread
  · rw [expand_of_null (by rw [hdefault]; rfl) hexp, hdefault]
    exact fun _ => ⟨fun _ => rfl, fun _ => rfl⟩
  · rw [← hpre] at hver hvin
    exact noProofs_of_wellFormed (hwf.rctSignatures hver hvin)

theorem within_expandProofs {rv : RctSig} {outputs : ℕ} (h : rv.p.RangeProofsWellFormed rv.type outputs) :
    Within Access.InRange (expandProofs smul outputs rv) fun _ => True := by
  rw [RctSigPrunable.RangeProofsWellFormed] at h
  refine within_ite (fun hplus => ?_) fun hplus => ?_
  · rcases rv.p.bulletproofsPlus with _ | ⟨proof, _ | ⟨_, _⟩⟩
    · exact within_ofOption.mono fun _ _ => trivial
    · refine within_ite (fun _ => within_ofOption.mono fun _ _ => trivial) fun _ => ?_
      apply (within_maxAmountsBase _ _ _).bind
      intro _ _
      apply (within_require _).bind
      exact fun _ _ => within_pure trivial
    · exact within_ofOption.mono fun _ _ => trivial
  · refine within_ite (fun hplain => ?_) fun _ => within_pure trivial
    rw [if_neg hplus, if_pos hplain] at h
    rcases hproofs : rv.p.bulletproofs with _ | ⟨proof, _ | ⟨_, _⟩⟩
    · exact within_ofOption.mono fun _ _ => trivial
    · refine within_ite (fun _ => within_ofOption.mono fun _ _ => trivial) fun _ => ?_
      -- the reader has refused a proof with more than ten rounds: it stands for no amount at all
      rw [hproofs, Rct.nBulletproofMaxAmounts] at h
      have hpos : 0 < Rct.sumAmounts 0 ([proof].map Bulletproof.maxAmounts) := by
        have hone : 1 ≤ outputs := h.1
        omega
      obtain ⟨-, hL, -⟩ := sizes_of_maxAmountsBase (ne_zero_of_sumAmounts hpos proof.maxAmounts (by simp))
      apply (within_shiftOne (by omega)).bind
      intro _ _
      apply (within_require _).bind
      exact fun _ _ => within_pure trivial
    · exact within_ofOption.mono fun _ _ => trivial

theorem within_expandRctSig {rv : RctSig} {vout : List TxOut} {inputs mixin : ℕ}
    (h : rv.WellFormed inputs vout.length mixin) :
    Within Access.InRange (expandRctSig smul vout rv) fun _ => True := by
  refine within_ite (fun _ => within_pure trivial) fun hnull => ?_
  refine within_ite (fun _ => within_ofOption.mono fun _ _ => trivial) fun _ => ?_
  apply within_ofOption.bind
  intro outPk _
  exact within_expandProofs (h.2 hnull).rangeProofs

theorem within_parse (smul : Key → Key) (blob : Bytes) :
    Within Access.InRange (parseAndValidateTxFromBlob smul blob) fun _ => True := by
  apply within_ofOption.bind
  intro tx hread
  rw [readAll_eq_some] at hread
  have hwf : tx.WellFormed := (valid_transaction tx).mp ((transaction false).valid_of_read hread)
  refine within_ite (fun _ => ?_) fun _ => within_pure trivial
  have hrct : Within Access.InRange (expandRctSig smul tx.vout tx.rctSignatures) fun _ => True := by
    obtain hdefault | ⟨hver, hvin⟩ := rctSig_of_read hread
    · rw [hdefault]
      exact within_pure trivial
    · exact within_expandRctSig (hwf.rctSignatures hver hvin)
  apply hrct.bind
  exact fun _ _ => within_pure trivial

theorem range_proof_accesses (smul : Key → Key) (outcomes : Outcomes) :
    (∀ proofs, ∀ access ∈ (Rct.Lengths.nBulletproofMaxAmounts proofs).events, access.InRange) ∧
    (∀ proofs, ∀ access ∈ (Rct.Lengths.nBulletproofPlusMaxAmounts proofs).events, access.InRange) ∧
    (∀ blob, ∀ access ∈ (parseAndValidateTxFromBlob smul blob).events, access.InRange) ∧
    ∀ txs : List Transaction, (∀ tx ∈ txs, ∃ blob, (parseAndValidateTxFromBlob smul blob).result = some tx) →
      ∀ access ∈ (verRctSemanticsSimple outcomes (txs.map Transaction.rctSignatures)).events, access.InRange := by
  refine ⟨fun proofs => (within_maxAmounts proofs []).1.1, fun proofs => (within_maxAmounts [] proofs).2.1,
    fun blob => (within_parse smul blob).1, fun txs htxs => ?_⟩
  apply (within_verRctSemanticsSimple outcomes _).1
  intro rv hrv
  obtain ⟨tx, htx, rfl⟩ := List.mem_map.mp hrv
  obtain ⟨blob, hblob⟩ := htxs tx htx
  rw [result_parse] at hblob
  exact noProofs_of_parse hblob

theorem range_proof_accesses_sample :
    ∃ blob tx, (parseAndValidateTxFromBlob id blob).result = some tx ∧
      tx.rctSignatures.p.bulletproofsPlus ≠ [] ∧
      ∀ access ∈ (verRctSemanticsSimple
        ⟨fun _ => ⟨true, true, true, true⟩, fun _ => ⟨true, true, true, true⟩, fun _ => true, fun _ => true,
          fun _ => true, fun _ _ => true⟩ [tx.rctSignatures]).events, access.InRange := by
  have hwf : sampleTx.WellFormed := (valid_transaction sampleTx).mp (by decide)
  obtain ⟨tx, htx⟩ : ∃ tx, Cryptonote.expandTransaction1 id sampleTx.serialised false = some tx := ⟨_, rfl⟩
  have hparse := (result_parse _).trans ((parse_write id hwf).trans htx)
  refine ⟨_, tx, hparse, ?_, (range_proof_accesses id _).2.2.2 [tx] ?_⟩
  · rw [← Option.some.inj htx]
    exact List.cons_ne_nil _ _
  · rintro tx' htx'
    rw [List.mem_singleton.mp htx']
    exact ⟨_, hparse⟩

end Velkavo.Cryptonote.Lengths
