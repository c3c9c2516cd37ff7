import Velkavo.ByteCodec.Sizes
import Velkavo.Cryptonote.BlobRoundTrip

namespace Velkavo.Cryptonote

open ByteCodec ByteCodec.Codec Rct

inductive PrunedForm (tx : Transaction) : Transaction → Prop
  | dropped (p : RctSigPrunable) :
    PrunedForm tx { tx with rctSignatures := { tx.rctSignatures with p := p }, pruned := true }
  | parsed (smul : Key → Key) (rest : Bytes) (tx' : Transaction)
    (h : parseAndValidateTxBaseFromBlob smul (transactionBase.write tx ++ rest) = some tx') : PrunedForm tx tx'

variable {tx : Transaction}

theorem write_eq_base_prunable (hversion : tx.version = 2) (hvin : tx.vin ≠ [])
    (htype : tx.rctSignatures.type ≠ .null) :
    (transaction false).write tx = transactionBase.write tx ++
      (rctSigPrunable tx.rctSignatures.type tx.vin.length tx.vout.length (mixin tx.vin)).write tx.rctSignatures.p := by
  simp [transactionBase, transaction, transactionBody, view, andThen, dep, seq, hversion, hvin, htype, absent, rctSig,
    List.append_assoc]

theorem write_pruned_eq_base (hversion : tx.version = 2) (hvin : tx.vin ≠ []) :
    (transaction true).write tx = transactionBase.write tx := by
  simp [transactionBase, transaction, transactionBody, view, andThen, dep, seq, hversion, hvin, absent, rctSig]

theorem write_base_eq (hversion : tx.version = 2) (hvin : tx.vin ≠ []) :
    transactionBase.write tx = transactionPrefix.write tx.toTransactionPrefix ++
      (rctSigBase tx.vin.length tx.vout.length).write tx.rctSignatures.toRctSigBase := by
  simp [transactionBase, view, andThen, dep, hversion, hvin]

theorem write_base_serialised {inputs outputs : ℕ} {b : RctSigBase} (h : b.WellFormed inputs outputs) :
    (rctSigBase inputs outputs).write b.serialised = (rctSigBase inputs outputs).write b := by
  rw [← kept_rctSigBase h]
  exact write_kept _ ((valid_rctSigBase inputs outputs b).mpr h)

theorem rctSignatures_serialised (hversion : tx.version = 2) (hvin : tx.vin ≠ []) :
    tx.serialised.rctSignatures = tx.rctSignatures.serialised := by
  simp [Transaction.serialised, hversion, hvin]

theorem PrunedForm.spec {tx' : Transaction} (h : PrunedForm tx tx') (hwf : tx.WellFormed)
    (hversion : tx.version = 2) (hvin : tx.vin ≠ []) :
    tx'.pruned = true ∧ tx'.toTransactionPrefix = tx.toTransactionPrefix ∧
      tx'.rctSignatures.type = tx.rctSignatures.type ∧ transactionBase.write tx' = transactionBase.write tx ∧
      tx'.rctSignatures.toRctSigBase.WellFormed tx.vin.length tx.vout.length := by
  have hwfBase := (hwf.rctSignatures hversion hvin).1
  cases h with
  | dropped p => exact ⟨rfl, rfl, rfl, rfl, hwfBase⟩
  | parsed smul rest _ hparse =>
    have hread := transactionBase.read_write .accept tx rest (write_eq_base_append hwf).1
    rw [kept_transactionBase hwf, rctSignatures_serialised hversion hvin] at hread
    rw [parseAndValidateTxBaseFromBlob, hread] at hparse
    obtain ⟨hser, hpruned⟩ := serialised_expand hparse
    have hpre : tx'.toTransactionPrefix = tx.toTransactionPrefix := by
      have hser' := congrArg (fun t : Transaction => t.toTransactionPrefix) hser
      exact hser'
    have hversion' : tx'.version = 2 := by rw [hpre, hversion]
    have hvin' : tx'.vin ≠ [] := by rwa [hpre]
    have hbase : tx'.rctSignatures.toRctSigBase.serialised =
        tx.rctSignatures.toRctSigBase.serialised.serialised := by
      have hrct := congrArg (fun t : Transaction => t.rctSignatures.toRctSigBase) hser
      rw [rctSignatures_serialised hversion' hvin'] at hrct
      rw [rctSignatures_serialised (by exact hversion) (by exact hvin)] at hrct
      exact hrct
    have hwfSer := (base_wellFormed_serialised _ _ _).mpr hwfBase
    have hwfBase' : tx'.rctSignatures.toRctSigBase.WellFormed tx.vin.length tx.vout.length := by
      rw [← base_wellFormed_serialised, hbase, base_wellFormed_serialised]
      exact hwfSer
    refine ⟨hpruned, hpre, ?_, ?_, hwfBase'⟩
    · rw [← type_serialised tx'.rctSignatures.toRctSigBase, hbase, type_serialised, type_serialised]
    · rw [write_base_eq hversion' hvin', write_base_eq hversion hvin, hpre, ← write_base_serialised hwfBase', hbase,
        write_base_serialised hwfSer, write_base_serialised hwfBase]

end Velkavo.Cryptonote
