import Velkavo.BlockchainDb.AddTransaction
import Velkavo.Containers.SetMap
import Velkavo.Core.TxSemantic

/-! The pool of transactions that are in no block: its table in the database and the indexes of that table in memory. -/

namespace Velkavo.TxPool

open Cryptonote ByteCodec ByteCodec.Codec BlockchainDb Rct

inductive RelayMethod
  | none
  | localOnly
  | forward
  | stem
  | fluff
  | block
  deriving DecidableEq

inductive RelayCategory
  | broadcasted
  | relayable
  | legacy
  | all
  deriving DecidableEq

namespace RelayMethod

def matchesCategory (method : RelayMethod) : RelayCategory → Bool
  | .all => true
  | .relayable => method ≠ none
  | category =>
    match method with
    | block | fluff => true
    | none => category = .legacy
    | _ => false

end RelayMethod

structure TxMeta where
  validInputVerificationId : Hash
  weight : ℕ
  fee : UInt64
  receiveTime : ℕ
  relayMethod : RelayMethod
  relayed : Bool
  doubleSpendSeen : Bool
  pruned : Bool

structure PoolRow where
  txMeta : TxMeta
  blob : Bytes

structure SortedTx where
  feePerByte : ℕ
  receiveTime : ℕ
  txid : Hash
  deriving DecidableEq

structure TxMemoryPool where
  table : ByHash PoolRow
  spentKeyImages : SetMap KeyImage Hash
  txpoolWeight : ℕ
  txpoolMaxWeight : ℕ
  txsByFeeAndReceiveTime : List SortedTx
  addedTxsById : UnorderedSet Hash
  timedOutTransactions : UnorderedSet Hash
  parsedTxCache : UnorderedMap Hash Transaction

def parseAndValidateTxPrefixFromBlob (blob : Bytes) : Option TransactionPrefix :=
  (transactionPrefix.read .accept blob).map Prod.fst

theorem prefix_expandTransaction1 {smul : Key → Key} {tx tx' : Transaction} {baseOnly : Bool}
    (h : expandTransaction1 smul tx baseOnly = some tx') : tx'.toTransactionPrefix = tx.toTransactionPrefix := by
  rw [expandTransaction1] at h
  split_ifs at h
  · obtain ⟨rv, -, rfl⟩ := Option.map_eq_some_iff.mp h
    rfl
  · rw [Option.some_inj.mp h]

theorem prefix_of_parse {smul : Key → Key} {blob : Bytes} {tx : Transaction}
    (h : parseAndValidateTxFromBlob smul blob = some tx) :
    parseAndValidateTxPrefixFromBlob blob = some tx.toTransactionPrefix := by
  simp only [parseAndValidateTxFromBlob, Option.bind_eq_bind, Option.bind_eq_some_iff] at h
  obtain ⟨tx₀, hread, hexpand⟩ := h
  obtain ⟨x, hx, rfl⟩ := read_view_eq_some.mp (readAll_eq_some.mp hread)
  obtain ⟨mid, hpre, -⟩ := read_andThen_eq_some.mp hx
  rw [parseAndValidateTxPrefixFromBlob, hpre, prefix_expandTransaction1 hexpand]
  rfl

theorem keyImages_cons_some {txin : Txin} {vin : List Txin} {image : KeyImage} (h : keyImage? txin = some image) :
    keyImages (txin :: vin) = image :: keyImages vin := by
  rw [keyImages, List.filterMap_cons, h]
  rfl

structure Spendable (vin : List Txin) : Prop where
  ne_nil : vin ≠ []
  toKey : ∀ txin ∈ vin, (keyImage? txin).isSome
  nodup : (keyImages vin).Nodup

structure TxFacts where
  vin : Hash → List Txin
  weight : Hash → ℕ

structure TxFacts.Row (r : TxFacts) (id : Hash) (row : PoolRow) : Prop where
  blob : ∃ tx, parseAndValidateTxPrefixFromBlob row.blob = some tx ∧ tx.vin = r.vin id
  spendable : Spendable (r.vin id)
  weight : row.txMeta.weight = r.weight id

end Velkavo.TxPool
