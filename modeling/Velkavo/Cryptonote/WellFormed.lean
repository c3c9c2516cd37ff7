import Velkavo.Cryptonote.FormatUtils

namespace Velkavo.Cryptonote

open ByteCodec ByteCodec.Codec Rct

def TxoutToScript.Sized (out : TxoutToScript) : Prop :=
  out.keys.length < 2 ^ 64 ∧ out.script.length < 2 ^ 64

def TxoutTarget.Sized : TxoutTarget → Prop
  | .toScript out => out.Sized
  | .toScripthash _ => True
  | .toKey _ => True
  | .toTaggedKey _ _ => True

def Txin.Sized : Txin → Prop
  | .gen _ => True
  | .toScript _ _ sigset => sigset.length < 2 ^ 64
  | .toScripthash _ _ script sigset => script.Sized ∧ sigset.length < 2 ^ 64
  | .toKey txin => txin.keyOffsets.length < 2 ^ 64

structure TransactionPrefix.WellFormed (pre : TransactionPrefix) : Prop where
  version_eq : pre.version = 1 ∨ pre.version = 2
  vin_lt : pre.vin.length < 2 ^ 64
  vout_lt : pre.vout.length < 2 ^ 64
  extra_lt : pre.extra.length < 2 ^ 64
  vin_sized : ∀ i ∈ pre.vin, i.Sized
  vout_sized : ∀ o ∈ pre.vout, o.target.Sized

/--
Version 1 has one signature vector an input, of ring size for a key input and empty for the others
(or, without key inputs, no vectors at all). Version 2 with inputs has the vector lengths of its type.
-/
structure Transaction.WellFormed (tx : Transaction) : Prop where
  pre : tx.toTransactionPrefix.WellFormed
  signatures : tx.version = 1 →
    (expectedSignatures tx.vin tx.signatures).map List.length = tx.vin.map Txin.getSignatureSize
  rctSignatures : tx.version = 2 → tx.vin ≠ [] →
    tx.rctSignatures.WellFormed tx.vin.length tx.vout.length (mixin tx.vin)

/-- The serialised fields; every other field is as in a fresh object. -/
def Transaction.serialised (tx : Transaction) : Transaction :=
  { tx with
    signatures := if tx.version = 1 then expectedSignatures tx.vin tx.signatures else []
    rctSignatures := if tx.version = 1 ∨ tx.vin = [] then default else tx.rctSignatures.serialised
    pruned := false }

def Block.serialised (b : Block) : Block := { b with minerTx := b.minerTx.serialised }

theorem valid_txoutToScript (out : TxoutToScript) : txoutToScript.valid out = true ↔ out.Sized := by
  simp only [txoutToScript, view, seq, dep, Bool.and_eq_true, valid_container, valid_byteString,
    valid_blob, implies_true, and_true]
  rfl

theorem valid_txoutTarget (target : TxoutTarget) :
    TxoutTarget.codec.valid target = true ↔ target.Sized := by
  have hbyte : ∀ b, byte.valid b = true := fun _ => rfl
  cases target with
  | toScript out =>
    simpa [TxoutTarget.codec, tagged, view, andThen, dep, hbyte, TxoutTarget.branch, TxoutTarget.tag,
      inject, TxoutTarget.Sized] using valid_txoutToScript out
  | toScripthash hash => exact iff_of_true rfl trivial
  | toKey key => exact iff_of_true rfl trivial
  | toTaggedKey key viewTag => exact iff_of_true rfl trivial

theorem valid_txin (i : Txin) : Txin.codec.valid i = true ↔ i.Sized := by
  have hbyte : ∀ b, byte.valid b = true := fun _ => rfl
  cases i <;> simp [Txin.codec, tagged, view, andThen, dep, seq, hbyte, Txin.branch, Txin.tag, inject,
    Txin.Sized, valid_byteString, valid_txoutToScript, Txin.toKeyCodec, valid_container]

theorem valid_txOut (out : TxOut) : txOut.valid out = true ↔ out.target.Sized := by
  simp only [txOut, view, seq, dep, valid_varint64, Bool.true_and, valid_txoutTarget]

theorem versionOk_iff (version : UInt64) : versionOk version = true ↔ version = 1 ∨ version = 2 := by
  simp only [versionOk, currentTransactionVersion, Bool.not_eq_true', Bool.or_eq_false_iff,
    beq_eq_false_iff_ne, decide_eq_false_iff_not, ne_eq, UInt64.lt_iff_toNat_lt, ← UInt64.toNat_inj]
  change ¬ version.toNat = 0 ∧ ¬ 2 < version.toNat ↔ version.toNat = 1 ∨ version.toNat = 2
  omega

theorem valid_transactionPrefix (pre : TransactionPrefix) :
    transactionPrefix.valid pre = true ↔ pre.WellFormed := by
  simp only [transactionPrefix, view, seq, dep, checked, filter, valid_varint64, Bool.true_and,
    Bool.and_eq_true, versionOk_iff, valid_container, valid_byteString, valid_txin, valid_txOut]
  constructor
  · rintro ⟨hver, ⟨hvin, hin⟩, ⟨hvout, hout⟩, hextra⟩
    exact ⟨hver, hvin, hvout, hextra, hin, hout⟩
  · rintro ⟨hver, hvin, hvout, hextra, hin, hout⟩
    exact ⟨hver, ⟨hvin, hin⟩, ⟨hvout, hout⟩, hextra⟩

theorem valid_each_signatures (vin : List Txin) (l : List (List Signature)) :
    (each (vin.map fun i => many i.getSignatureSize (blob 64))).valid l = true ↔
      l.map List.length = vin.map Txin.getSignatureSize := by
  induction vin generalizing l with
  | nil => cases l <;> simp [each, inject, absent]
  | cons i vin ih =>
    cases l with
    | nil => simp [each, inject, uncons]
    | cons s l =>
      simp only [List.map_cons, valid_each_cons, Bool.and_eq_true, valid_many, valid_blob,
        implies_true, and_true, ih, List.cons.injEq]

theorem valid_transaction (tx : Transaction) :
    (transaction false).valid tx = true ↔ tx.WellFormed := by
  have hbody : tx.toTransactionPrefix.WellFormed →
      ((transactionBody false tx.toTransactionPrefix).valid (tx.signatures, tx.rctSignatures) = true ↔
        (tx.version = 1 → (expectedSignatures tx.vin tx.signatures).map List.length =
          tx.vin.map Txin.getSignatureSize) ∧
        (tx.version = 2 → tx.vin ≠ [] →
          tx.rctSignatures.WellFormed tx.vin.length tx.vout.length (mixin tx.vin))) := by
    intro hpre
    have h12 : (1 : UInt64) ≠ 2 := by decide
    rcases hpre.version_eq with hv | hv
    · simp [transactionBody, hv, seq, dep, absent, signatures, view, valid_each_signatures]
    · by_cases hvin : tx.vin = []
      · simp [transactionBody, hv, hvin, seq, dep, absent]
      · simp [transactionBody, hv, hvin, seq, dep, absent, valid_rctSig]
  simp only [transaction, view, andThen, dep, Bool.and_eq_true, valid_transactionPrefix]
  constructor
  · rintro ⟨hpre, hb⟩
    obtain ⟨hs, hr⟩ := (hbody hpre).mp hb
    exact ⟨hpre, hs, hr⟩
  · rintro ⟨hpre, hs, hr⟩
    exact ⟨hpre, (hbody hpre).mpr ⟨hs, hr⟩⟩

theorem kept_each_signatures (vin : List Txin) (l : List (List Signature)) :
    (each (vin.map fun i => many i.getSignatureSize (blob 64))).kept l = l := by
  have hex : Exact (each (vin.map fun i => many i.getSignatureSize (blob 64))) := by
    refine exact_each _ fun c hc => ?_
    obtain ⟨i, -, rfl⟩ := List.mem_map.mp hc
    infer_instance
  exact hex.kept_eq l

theorem kept_transaction {tx : Transaction} (h : tx.WellFormed) :
    (transaction false).kept tx = tx.serialised := by
  have h12 : (2 : UInt64) ≠ 1 := by decide
  rcases h.pre.version_eq with hv | hv
  · simp [transaction, view, andThen, dep, Exact.kept_eq, transactionBody, hv, seq, absent, signatures,
      kept_each_signatures, Transaction.serialised]
  · by_cases hvin : tx.vin = []
    · simp [transaction, view, andThen, dep, Exact.kept_eq, transactionBody, hv, hvin, seq, absent,
        Transaction.serialised]
    · simp [transaction, view, andThen, dep, Exact.kept_eq, transactionBody, hv, hvin, seq, absent,
        Transaction.serialised, kept_rctSig (h.rctSignatures hv hvin)]

end Velkavo.Cryptonote
