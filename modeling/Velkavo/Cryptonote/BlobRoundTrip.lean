import Velkavo.Cryptonote.Expand

namespace Velkavo.Cryptonote

open ByteCodec ByteCodec.Codec Rct

def numbersComplete {α : Type} (c : Codec α) (blob : Bytes) : Bool := (readAll c .reject blob).isSome

variable {blob : Bytes} {tx tx' : Transaction} {smul : Key → Key} {b : Block}

theorem numbersComplete_iff {α : Type} {c : Codec α} :
    numbersComplete c blob = true ↔ ∃ a, c.read .reject blob = some (a, []) := by
  simp only [numbersComplete, Option.isSome_iff_exists, readAll_eq_some]

theorem write_serialised (h : tx.WellFormed) :
    (transaction false).write tx.serialised = (transaction false).write tx := by
  have hr := (transaction false).read_write .reject tx [] ((valid_transaction tx).mpr h)
  rw [kept_transaction h] at hr
  simpa using ((transaction false).write_of_read hr).symm

theorem serialised_serialised (h : tx.WellFormed) :
    tx.serialised.serialised = tx.serialised := by
  have hr := (transaction false).read_write .reject tx [] ((valid_transaction tx).mpr h)
  rw [kept_transaction h] at hr
  rw [← kept_transaction ((wellFormed_serialised tx).mpr h)]
  exact (transaction false).kept_of_strict hr

theorem pruned_of_read {p : AtEnd} {rest : Bytes}
    (h : (transaction false).read p blob = some (tx, rest)) : tx.pruned = false := by
  obtain ⟨x, -, rfl⟩ := read_view_eq_some.mp h
  rfl

theorem txToBlob_of_parse
    (h : parseAndValidateTxFromBlob smul blob = some tx') :
    ∃ tx, (transaction false).read .accept blob = some (tx, []) ∧
      txToBlob tx' = some ((transaction false).write tx) := by
  simp only [parseAndValidateTxFromBlob, Option.bind_eq_bind, Option.bind_eq_some_iff] at h
  obtain ⟨tx, hr, hexp⟩ := h
  rw [readAll_eq_some] at hr
  obtain ⟨hser, hpr⟩ := serialised_expand hexp
  have hwf : tx.WellFormed := (valid_transaction tx).mp ((transaction false).valid_of_read hr)
  have hwf' : tx'.WellFormed := by
    rw [← wellFormed_serialised, hser, wellFormed_serialised]
    exact hwf
  refine ⟨tx, hr, ?_⟩
  rw [txToBlob, hpr, pruned_of_read hr, if_pos ((valid_transaction tx').mpr hwf'),
    ← write_serialised hwf', hser, write_serialised hwf]

theorem pruned_minerTx_of_read {p : AtEnd} {rest : Bytes}
    (h : (block false).read p blob = some (b, rest)) : b.minerTx.pruned = false := by
  obtain ⟨⟨header, minerTx, txHashes⟩, hb, rfl⟩ := read_view_eq_some.mp h
  obtain ⟨mid, -, hb⟩ := read_seq_eq_some.mp hb
  obtain ⟨mid', htx, -⟩ := read_seq_eq_some.mp hb
  exact pruned_of_read htx

theorem blockToBlob_of_parse (h : parseAndValidateBlockFromBlob blob = some b) :
    (block false).read .accept blob = some (b, []) ∧ blockToBlob b = some ((block false).write b) := by
  have hr := readAll_eq_some.mp h
  refine ⟨hr, ?_⟩
  rw [blockToBlob, pruned_minerTx_of_read hr, if_pos ((block false).valid_of_read hr)]

theorem toBlob_of_parse_iff (smul : Key → Key) :
    (∀ blob tx, parseAndValidateTxFromBlob smul blob = some tx →
      (txToBlob tx = some blob ↔ numbersComplete (transaction false) blob = true)) ∧
    (∀ blob b, parseAndValidateBlockFromBlob blob = some b →
      (blockToBlob b = some blob ↔ numbersComplete (block false) blob = true)) ∧
    (∀ blob₁ blob₂ tx, parseAndValidateTxFromBlob smul blob₁ = some tx →
      parseAndValidateTxFromBlob smul blob₂ = some tx → numbersComplete (transaction false) blob₁ = true →
      numbersComplete (transaction false) blob₂ = true → blob₁ = blob₂) ∧
    (∀ blob₁ blob₂ b, parseAndValidateBlockFromBlob blob₁ = some b →
      parseAndValidateBlockFromBlob blob₂ = some b → numbersComplete (block false) blob₁ = true →
      numbersComplete (block false) blob₂ = true → blob₁ = blob₂) := by
  have htx : ∀ blob tx, parseAndValidateTxFromBlob smul blob = some tx →
      (txToBlob tx = some blob ↔ numbersComplete (transaction false) blob = true) := by
    intro blob tx h
    obtain ⟨tx₀, hr, hblob⟩ := txToBlob_of_parse h
    rw [hblob, Option.some.injEq, (transaction false).write_eq_iff_strict hr, numbersComplete_iff]
  have hblock : ∀ blob b, parseAndValidateBlockFromBlob blob = some b →
      (blockToBlob b = some blob ↔ numbersComplete (block false) blob = true) := by
    intro blob b h
    obtain ⟨hr, hblob⟩ := blockToBlob_of_parse h
    rw [hblob, Option.some.injEq, (block false).write_eq_iff_strict hr, numbersComplete_iff]
  refine ⟨htx, hblock, fun blob₁ blob₂ tx h₁ h₂ hc₁ hc₂ => ?_, fun blob₁ blob₂ b h₁ h₂ hc₁ hc₂ => ?_⟩
  · exact Option.some.inj (((htx _ _ h₁).mpr hc₁).symm.trans ((htx _ _ h₂).mpr hc₂))
  · exact Option.some.inj (((hblock _ _ h₁).mpr hc₁).symm.trans ((hblock _ _ h₂).mpr hc₂))

def emptyTx : Transaction := ⟨⟨1, 0, [], [], []⟩, [], default, false⟩

def emptyBlock : Block := ⟨⟨1, 0, 0, nullHash, 0⟩, emptyTx, []⟩

def emptyBlockBlob : Bytes := [1, 0, 0] ++ List.replicate 36 0 ++ [1, 0, 0, 0, 0] ++ [0]

theorem toBlob_of_parse_iff_empty :
    parseAndValidateTxFromBlob id [1, 0, 0, 0, 0] = some emptyTx ∧
      txToBlob emptyTx = some [1, 0, 0, 0, 0] ∧
      parseAndValidateBlockFromBlob emptyBlockBlob = some emptyBlock ∧
      blockToBlob emptyBlock = some emptyBlockBlob := by
  have htx : parseAndValidateTxFromBlob id [1, 0, 0, 0, 0] = some emptyTx := by decide
  have hb : parseAndValidateBlockFromBlob emptyBlockBlob = some emptyBlock := by decide
  obtain ⟨h₁, h₂, -, -⟩ := toBlob_of_parse_iff id
  exact ⟨htx, (h₁ _ _ htx).mpr (by decide), hb, (h₂ _ _ hb).mpr (by decide)⟩

theorem parse_truncated :
    parseAndValidateTxFromBlob id [1] = some emptyTx ∧
      parseAndValidateTxFromBlob id [1, 0, 0, 0, 0] = some emptyTx ∧
      txToBlob emptyTx = some [1, 0, 0, 0, 0] := by
  refine ⟨by decide, by decide, by decide⟩

theorem txToBlob_of_wellFormed (h : tx.WellFormed) (hp : tx.pruned = false) :
    txToBlob tx = some ((transaction false).write tx) := by
  rw [txToBlob, hp, if_pos ((valid_transaction tx).mpr h)]

theorem parse_write (smul : Key → Key) (h : tx.WellFormed) :
    parseAndValidateTxFromBlob smul ((transaction false).write tx) =
      expandTransaction1 smul tx.serialised false := by
  have hr := (transaction false).read_write .accept tx [] ((valid_transaction tx).mpr h)
  rw [List.append_nil, kept_transaction h] at hr
  simp [parseAndValidateTxFromBlob, readAll_eq_some.mpr hr]

/--
A version 2 transaction with inputs, other than a coinbase or one without signature, pays to keys
only and has a single bulletproof if its type has them.
-/
def Transaction.Expandable (tx : Transaction) : Prop :=
  tx.version = 2 → isCoinbase tx = false → tx.vin ≠ [] → tx.rctSignatures.type ≠ .null →
    (∀ out ∈ tx.vout, (getOutputPublicKey out).isSome) ∧
      (tx.rctSignatures.type.isBulletproofPlus → tx.rctSignatures.p.bulletproofsPlus.length = 1) ∧
      (tx.rctSignatures.type.isBulletproof → tx.rctSignatures.p.bulletproofs.length = 1)

theorem capacity_of_single {l r outputs : ℕ} (hpos : 1 ≤ outputs)
    (h : outputs ≤ sumAmounts 0 [nBulletproofMaxAmountsBase l r 16]) :
    6 ≤ l ∧ outputs ≤ nBulletproofMaxAmountsBase l r 16 ∧ outputs ≤ 1 <<< (l - 6) := by
  have hne := ne_zero_of_sumAmounts (by omega : 0 < sumAmounts 0 [nBulletproofMaxAmountsBase l r 16]) _
    (List.mem_singleton_self _)
  obtain ⟨hl, hu, hr⟩ := sizes_of_maxAmountsBase hne
  have hcap : nBulletproofMaxAmountsBase l r 16 = 1 <<< (l - 6) := by
    simp [nBulletproofMaxAmountsBase, ← hr, not_lt.mpr hl, not_lt.mpr hu]
  have hsum : outputs ≤ nBulletproofMaxAmountsBase l r 16 := by
    simp only [sumAmounts] at h
    split_ifs at h <;> omega
  exact ⟨hl, hsum, hcap ▸ hsum⟩

theorem expandProofs_isSome {outputs : ℕ} {rv : RctSig}
    (hw : rv.p.RangeProofsWellFormed rv.type outputs) :
    (expandProofs smul outputs rv).isSome ↔
      (rv.type.isBulletproofPlus → rv.p.bulletproofsPlus.length = 1) ∧
        (rv.type.isBulletproof → rv.p.bulletproofs.length = 1) := by
  have hexcl : rv.type.isBulletproofPlus = true → rv.type.isBulletproof = false := by
    cases rv.type <;> simp [RctType.isBulletproofPlus, RctType.isBulletproof]
  unfold expandProofs
  unfold RctSigPrunable.RangeProofsWellFormed at hw
  split_ifs at hw ⊢ with hplus hbp
  · simp only [hplus, hexcl hplus, Bool.false_eq_true, false_implies, and_true, true_implies]
    split
    · rename_i proof hp
      rw [hp] at hw
      obtain ⟨h₁, h₂, -⟩ := capacity_of_single hw.1 hw.2
      have hmax : ¬ proof.maxAmounts < outputs := not_lt.mpr h₂
      rw [if_neg (not_lt.mpr h₁), if_neg hmax]
      exact iff_of_true rfl (by rw [hp]; rfl)
    · rename_i hne
      exact iff_of_false (by simp) fun h => (List.length_eq_one_iff.mp h).elim hne
  · simp only [hplus, hbp, Bool.false_eq_true, false_implies, true_and, true_implies]
    split
    · rename_i proof hp
      rw [hp] at hw
      obtain ⟨h₁, -, h₂⟩ := capacity_of_single hw.1 hw.2
      rw [if_neg (not_lt.mpr h₁), if_neg (not_lt.mpr h₂)]
      exact iff_of_true rfl (by rw [hp]; rfl)
    · rename_i hne
      exact iff_of_false (by simp) fun h => (List.length_eq_one_iff.mp h).elim hne
  · simp [hplus, hbp]

theorem expandRctSig_isSome {vout : List TxOut} {inputs mixin : ℕ} {rv : RctSig}
    (hnull : rv.type ≠ .null) (hw : rv.WellFormed inputs vout.length mixin) :
    (expandRctSig smul vout false rv).isSome ↔
      (∀ out ∈ vout, (getOutputPublicKey out).isSome) ∧
        (rv.type.isBulletproofPlus → rv.p.bulletproofsPlus.length = 1) ∧
        (rv.type.isBulletproof → rv.p.bulletproofs.length = 1) := by
  obtain ⟨-, -, hl⟩ := hw.1 hnull
  have hproofs := (hw.2 hnull).rangeProofs
  rw [expandRctSig, if_neg hnull, if_neg (not_not.mpr hl)]
  cases hfill : fillDest rv.outPk vout with
  | none =>
    refine iff_of_false (by simp) fun h => ?_
    have hsome : (fillDest rv.outPk vout).isSome := fillDest_isSome h.1
    rw [hfill] at hsome
    exact Bool.false_ne_true hsome
  | some outPk =>
    have hkeys := (fillDest_masks hl hfill).2
    rw [Option.bind_some, if_neg Bool.false_ne_true, and_iff_right hkeys]
    have hproofs' : RctSigPrunable.RangeProofsWellFormed ({ rv with outPk := outPk } : RctSig).type
      vout.length ({ rv with outPk := outPk } : RctSig).p := hproofs
    exact expandProofs_isSome hproofs'

theorem expandRctSig_serialised_isSome {vout : List TxOut} {inputs mixin : ℕ}
    {rv : RctSig} (hnull : rv.type ≠ .null) (hw : rv.WellFormed inputs vout.length mixin) :
    (expandRctSig smul vout false rv.serialised).isSome ↔
      (∀ out ∈ vout, (getOutputPublicKey out).isSome) ∧
        (rv.type.isBulletproofPlus → rv.p.bulletproofsPlus.length = 1) ∧
        (rv.type.isBulletproof → rv.p.bulletproofs.length = 1) := by
  have htype : rv.serialised.type = rv.type := type_serialised _
  rw [expandRctSig_isSome (by rwa [htype]) ((Rct.wellFormed_serialised _ _ _ _).mpr hw), htype]
  refine and_congr_right' (and_congr (imp_congr_right fun hp => ?_) (imp_congr_right fun hp => ?_))
  · simp [RctSig.serialised, hnull, RctSigPrunable.serialised, hp]
  · simp [RctSig.serialised, hnull, RctSigPrunable.serialised, hp]

theorem expand_isSome (h : tx.WellFormed) :
    (expandTransaction1 smul tx.serialised false).isSome ↔ tx.Expandable := by
  have hcoin : isCoinbase tx.serialised = isCoinbase tx := rfl
  rcases h.pre.version_eq with hv | hv
  · refine iff_of_true ?_ fun hv' => absurd (hv.symm.trans hv') (by decide)
    simp [expandTransaction1, Transaction.serialised, hv]
  cases hc : isCoinbase tx with
  | true =>
    refine iff_of_true ?_ fun _ hc' => absurd hc (by simp [hc'])
    simp [expandTransaction1, hcoin, hc]
  | false =>
    have hver : (decide (tx.serialised.version ≥ 2) && !isCoinbase tx.serialised) = true := by
      rw [hcoin, hc, show tx.serialised.version = 2 from hv]
      rfl
    rw [expandTransaction1, if_pos hver, Option.isSome_map]
    by_cases hvin : tx.vin = []
    · refine iff_of_true ?_ fun _ _ hne => absurd hvin hne
      have hdef : tx.serialised.rctSignatures = default := by simp [Transaction.serialised, hvin]
      rw [hdef]
      rfl
    have hrct : tx.serialised.rctSignatures = tx.rctSignatures.serialised := by
      simp [Transaction.serialised, hv, hvin]
    rw [hrct]
    by_cases hnull : tx.rctSignatures.type = .null
    · refine iff_of_true ?_ fun _ _ _ hne => absurd hnull hne
      simp [RctSig.serialised, expandRctSig, hnull]
    rw [show tx.serialised.vout = tx.vout from rfl,
      expandRctSig_serialised_isSome hnull (h.rctSignatures hv hvin)]
    exact ⟨fun hE _ _ _ _ => hE, fun hE => hE hv hc hvin hnull⟩

theorem write_eq_base_append (h : tx.WellFormed) :
    transactionBase.valid tx = true ∧
      ∃ rest, (transaction false).write tx = transactionBase.write tx ++ rest := by
  have hpre := (valid_transactionPrefix _).mpr h.pre
  rcases h.pre.version_eq with hv | hv
  · refine ⟨by simp [transactionBase, view, andThen, dep, hpre, hv, absent], ?_⟩
    simp [transactionBase, transaction, transactionBody, view, andThen, dep, hv, absent]
  by_cases hvin : tx.vin = []
  · refine ⟨by simp [transactionBase, view, andThen, dep, hpre, hvin, absent], ?_⟩
    simp [transactionBase, transaction, transactionBody, view, andThen, dep, hv, hvin, absent]
  · have hb := (valid_rctSigBase _ _ _).mpr (h.rctSignatures hv hvin).1
    refine ⟨by simp [transactionBase, view, andThen, dep, hpre, hv, hvin, hb], ?_⟩
    simp [transactionBase, transaction, transactionBody, view, andThen, dep, seq, hv, hvin, absent, rctSig,
      List.append_assoc]

theorem kept_transactionBase (h : tx.WellFormed) :
    transactionBase.kept tx =
      ⟨tx.toTransactionPrefix, [], ⟨tx.serialised.rctSignatures.toRctSigBase, default⟩, true⟩ := by
  rcases h.pre.version_eq with hv | hv
  · simp [transactionBase, view, andThen, dep, Exact.kept_eq, hv, absent, Transaction.serialised]
    rfl
  by_cases hvin : tx.vin = []
  · simp [transactionBase, view, andThen, dep, Exact.kept_eq, hvin, absent, Transaction.serialised]
    rfl
  · simp [transactionBase, view, andThen, dep, Exact.kept_eq, hv, hvin, Transaction.serialised,
      kept_rctSigBase (h.rctSignatures hv hvin).1, RctSig.serialised]

theorem toNat_unprunableSize (h : tx.version = 1 ∨ tx.vin ≠ [])
    (hsize : (transactionBase.write tx).length < 2 ^ 32) :
    (unprunableSize tx).toNat = (transactionBase.write tx).length := by
  rcases eq_or_ne tx.version 1 with hv | hv
  · have hw : transactionBase.write tx = transactionPrefix.write tx.toTransactionPrefix := by
      simp [transactionBase, view, andThen, dep, hv, absent]
    rw [unprunableSize, if_pos hv, ← hw]
    exact UInt32.toNat_ofNat_of_lt' hsize
  · rw [unprunableSize, if_neg hv, if_neg (h.resolve_left hv)]
    exact UInt32.toNat_ofNat_of_lt' hsize

theorem parse_base_write (h : tx.WellFormed)
    (hexp : expandTransaction1 smul tx.serialised false = some tx') :
    ∃ base, parseAndValidateTxBaseFromBlob smul (transactionBase.write tx) = some base ∧
      base.toTransactionPrefix = tx'.toTransactionPrefix ∧
      base.rctSignatures.toRctSigBase = tx'.rctSignatures.toRctSigBase := by
  obtain ⟨hvalid, -⟩ := write_eq_base_append h
  have hr := transactionBase.read_write .accept tx [] hvalid
  rw [List.append_nil, kept_transactionBase h] at hr
  simp only [parseAndValidateTxBaseFromBlob, hr, Option.bind_eq_bind, Option.bind_some]
  have hrct : (⟨tx.serialised.rctSignatures.toRctSigBase, default⟩ : RctSig).toRctSigBase =
      tx.serialised.rctSignatures.toRctSigBase := rfl
  exact expand_base (by rfl) hrct hexp

theorem parse_base_of_keys (smul : Key → Key) (h : tx.WellFormed)
    (hkeys : ∀ out ∈ tx.vout, (getOutputPublicKey out).isSome) :
    ∃ base, parseAndValidateTxBaseFromBlob smul (transactionBase.write tx) = some base ∧
      base.toTransactionPrefix = tx.toTransactionPrefix := by
  obtain ⟨hvalid, -⟩ := write_eq_base_append h
  have hr := transactionBase.read_write .accept tx [] hvalid
  rw [List.append_nil, kept_transactionBase h] at hr
  simp only [parseAndValidateTxBaseFromBlob, hr, Option.bind_eq_bind, Option.bind_some]
  have hrct : (expandRctSig smul tx.vout true ⟨tx.serialised.rctSignatures.toRctSigBase, default⟩).isSome := by
    by_cases hnull : tx.serialised.rctSignatures.type = .null
    · simp [expandRctSig, hnull]
    have hser : ¬(tx.version = 1 ∨ tx.vin = []) := fun hdef => hnull (by simp [Transaction.serialised, hdef]; rfl)
    rw [not_or] at hser
    have hwf := ((wellFormed_serialised tx).mpr h).rctSignatures (h.pre.version_eq.resolve_left hser.1) hser.2
    obtain ⟨-, -, hl⟩ := hwf.1 hnull
    have hl' : tx.serialised.rctSignatures.outPk.length = tx.vout.length := hl
    obtain ⟨outPk, hfill⟩ := Option.isSome_iff_exists.mp
      (fillDest_isSome hkeys : (fillDest tx.serialised.rctSignatures.outPk tx.vout).isSome)
    simp [expandRctSig, hnull, hl', hfill]
  obtain ⟨rv, hrv⟩ := Option.isSome_iff_exists.mp hrct
  rw [expandTransaction1]
  split_ifs
  · exact ⟨_, congrArg (Option.map _) hrv, rfl⟩
  · exact ⟨_, rfl, rfl⟩

theorem parse_base_take (h : tx.WellFormed)
    (hin : tx.version = 1 ∨ tx.vin ≠ []) (hsize : (transactionBase.write tx).length < 2 ^ 32)
    (hexp : expandTransaction1 smul tx.serialised false = some tx') :
    ∃ base, parseAndValidateTxBaseFromBlob smul
        (((transaction false).write tx).take (unprunableSize tx).toNat) = some base ∧
      base.toTransactionPrefix = tx'.toTransactionPrefix ∧
      base.rctSignatures.toRctSigBase = tx'.rctSignatures.toRctSigBase := by
  obtain ⟨-, rest, hw⟩ := write_eq_base_append h
  rw [toNat_unprunableSize hin hsize, hw, List.take_left]
  exact parse_base_write h hexp

theorem valid_block (b : Block) :
    (block false).valid b = true ↔ b.minerTx.WellFormed ∧ b.txHashes.length ≤ maxTxPerBlock := by
  have hmax : b.txHashes.length ≤ maxTxPerBlock → b.txHashes.length < 2 ^ 64 := by
    intro h
    simp only [maxTxPerBlock] at h
    omega
  have hheader : blockHeader.valid b.toBlockHeader = true := by
    simp [blockHeader, view, seq, dep, uint32]
  simp only [block, view, seq, dep, hheader, Bool.true_and, Bool.and_eq_true, valid_transaction, checked,
    filter, valid_container, valid_blob, implies_true, and_true, decide_eq_true_eq]
  exact and_congr_right' ⟨fun h => h.2, fun h => ⟨hmax h, h⟩⟩

theorem kept_block (h : b.minerTx.WellFormed) : (block false).kept b = b.serialised := by
  simp [block, view, seq, dep, Exact.kept_eq, kept_transaction h, Block.serialised]

theorem blockToBlob_of_wellFormed (h : b.minerTx.WellFormed) (hp : b.minerTx.pruned = false)
    (hmax : b.txHashes.length ≤ maxTxPerBlock) : blockToBlob b = some ((block false).write b) ∧
      parseAndValidateBlockFromBlob ((block false).write b) = some b.serialised := by
  have hv := (valid_block b).mpr ⟨h, hmax⟩
  have hr := (block false).read_write .accept b [] hv
  rw [List.append_nil, kept_block h] at hr
  exact ⟨by rw [blockToBlob, hp, if_pos hv], readAll_eq_some.mpr hr⟩

def sampleTx : Transaction :=
  let k : Key := Blob.fill 32 7
  { version := 2
    unlockTime := 0
    vin := [.toKey ⟨0, [300, 5], k⟩]
    vout := [⟨0, .toTaggedKey k (Blob.fill 1 9)⟩]
    extra := [1, 2]
    signatures := []
    rctSignatures :=
      { type := .bulletproofPlus
        pseudoOuts := []
        ecdhInfo := [⟨Blob.zero 32, k⟩]
        outPk := [⟨k, k⟩]
        txnFee := 1000
        p :=
          { rangeSigs := []
            bulletproofs := []
            bulletproofsPlus := [⟨[], k, k, k, k, k, k, List.replicate 6 k, List.replicate 6 k⟩]
            MGs := []
            CLSAGs := [⟨[k, k], k, k⟩]
            pseudoOuts := [k] } }
    pruned := false }

def noProofTx : Transaction :=
  { sampleTx with
    vout := []
    rctSignatures :=
      { sampleTx.rctSignatures with
        ecdhInfo := []
        outPk := []
        p := { sampleTx.rctSignatures.p with bulletproofsPlus := [] } } }

end Velkavo.Cryptonote
