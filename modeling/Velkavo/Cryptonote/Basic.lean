import Velkavo.Ringct.RctTypes

namespace Velkavo.Cryptonote

open ByteCodec

abbrev Hash := Blob 32

instance lawfulBEq_hash : LawfulBEq Hash := inferInstance

theorem length_hashBytes (n : ℕ) : (littleEndian 32 n).length = 32 := littleEndian_length 32 n

abbrev PublicKey := Blob 32

abbrev KeyImage := Blob 32

abbrev ViewTag := Blob 1

abbrev Signature := Blob 64

def nullHash : Hash := Blob.zero 32

inductive NetworkType
  | mainnet
  | testnet
  | stagenet
  | fakechain
  deriving DecidableEq, Repr

structure TxoutToScript where
  keys : List PublicKey
  script : Bytes
  deriving DecidableEq, Repr

inductive TxoutTarget
  | toScript (out : TxoutToScript)
  | toScripthash (hash : Hash)
  | toKey (key : PublicKey)
  | toTaggedKey (key : PublicKey) (viewTag : ViewTag)
  deriving DecidableEq, Repr

structure TxinToKey where
  amount : UInt64
  keyOffsets : List UInt64
  kImage : KeyImage
  deriving DecidableEq, Repr

inductive Txin
  | gen (height : UInt64)
  | toScript (prev : Hash) (prevout : UInt64) (sigset : Bytes)
  | toScripthash (prev : Hash) (prevout : UInt64) (script : TxoutToScript) (sigset : Bytes)
  | toKey (txin : TxinToKey)
  deriving DecidableEq, Repr

structure TxOut where
  amount : UInt64
  target : TxoutTarget
  deriving DecidableEq, Repr

structure TransactionPrefix where
  version : UInt64
  unlockTime : UInt64
  vin : List Txin
  vout : List TxOut
  extra : Bytes
  deriving DecidableEq, Repr

structure Transaction extends TransactionPrefix where
  signatures : List (List Signature)
  rctSignatures : Rct.RctSig
  pruned : Bool
  deriving DecidableEq, Repr

structure BlockHeader where
  majorVersion : UInt8
  minorVersion : UInt8
  timestamp : UInt64
  prevId : Hash
  nonce : UInt32
  deriving DecidableEq, Repr

structure Block extends BlockHeader where
  minerTx : Transaction
  txHashes : List Hash
  deriving DecidableEq, Repr

def currentTransactionVersion : UInt64 := 2

def maxTxPerBlock : ℕ := 0x10000000

def Txin.getSignatureSize : Txin → ℕ
  | .gen _ => 0
  | .toScript _ _ _ => 0
  | .toScripthash _ _ _ _ => 0
  | .toKey txin => txin.keyOffsets.length

/-- The ring size of the first input less one, in 64-bit arithmetic: an empty ring gives `2 ^ 64 - 1`. -/
def mixin (vin : List Txin) : ℕ :=
  match vin with
  | .toKey txin :: _ => (txin.keyOffsets.length + 2 ^ 64 - 1) % 2 ^ 64
  | _ => 0

end Velkavo.Cryptonote
