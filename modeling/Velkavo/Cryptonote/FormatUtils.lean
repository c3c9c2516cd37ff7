import Velkavo.Cryptonote.Serialization

namespace Velkavo.Cryptonote

open ByteCodec ByteCodec.Codec Rct

def isCoinbase (tx : Transaction) : Bool :=
  match tx.vin with
  | [.gen _] => true
  | _ => false

def getOutputPublicKey (out : TxOut) : Option PublicKey :=
  match out.target with
  | .toKey key => some key
  | .toTaggedKey key _ => some key
  | _ => none

def fillDest : List CtKey → List TxOut → Option (List CtKey)
  | k :: outPk, out :: vout => do
    let key ← getOutputPublicKey out
    let outPk ← fillDest outPk vout
    pure ({ k with dest := key } :: outPk)
  | _, _ => some []

def expandProofs (scalarmultInvEight : Key → Key) (outputs : ℕ) (rv : RctSig) : Option RctSig :=
  let V := rv.outPk.map fun k => scalarmultInvEight k.mask
  if rv.type.isBulletproofPlus then
    match rv.p.bulletproofsPlus with
    | [proof] =>
      if proof.L.length < 6 then none
      else if proof.maxAmounts < outputs then none
      else some { rv with p := { rv.p with bulletproofsPlus := [{ proof with V := V }] } }
    | _ => none
  else if rv.type.isBulletproof then
    match rv.p.bulletproofs with
    | [proof] =>
      if proof.L.length < 6 then none
      else if 1 <<< (proof.L.length - 6) < outputs then none
      else some { rv with p := { rv.p with bulletproofs := [{ proof with V := V }] } }
    | _ => none
  else some rv

def expandRctSig (scalarmultInvEight : Key → Key) (vout : List TxOut) (baseOnly : Bool) (rv : RctSig) :
    Option RctSig :=
  if rv.type = .null then some rv
  else if rv.outPk.length ≠ vout.length then none
  else (fillDest rv.outPk vout).bind fun outPk =>
    if baseOnly then some { rv with outPk := outPk }
    else expandProofs scalarmultInvEight vout.length { rv with outPk := outPk }

def expandTransaction1 (scalarmultInvEight : Key → Key) (tx : Transaction) (baseOnly : Bool) :
    Option Transaction :=
  if tx.version ≥ 2 && !isCoinbase tx then
    (expandRctSig scalarmultInvEight tx.vout baseOnly tx.rctSignatures).map
      fun rv => { tx with rctSignatures := rv }
  else some tx

def parseAndValidateTxFromBlob (scalarmultInvEight : Key → Key) (blob : Bytes) : Option Transaction := do
  let tx ← readAll (transaction false) .accept blob
  expandTransaction1 scalarmultInvEight tx false

def parseAndValidateBlockFromBlob (blob : Bytes) : Option Block := readAll (block false) .accept blob

def txToBlob (tx : Transaction) : Option Bytes :=
  if (transaction tx.pruned).valid tx then some ((transaction tx.pruned).write tx) else none

def blockToBlob (b : Block) : Option Bytes :=
  if (block b.minerTx.pruned).valid b then some ((block b.minerTx.pruned).write b) else none

def transactionBase : Codec Transaction :=
  view
    (andThen transactionPrefix fun pre =>
      if pre.version = 1 ∨ pre.vin = [] then absent default
      else rctSigBase pre.vin.length pre.vout.length)
    (fun tx => (tx.toTransactionPrefix, tx.rctSignatures.toRctSigBase))
    (fun x => ⟨x.1, [], ⟨x.2, default⟩, true⟩) fun _ _ => rfl

def parseAndValidateTxBaseFromBlob (scalarmultInvEight : Key → Key) (blob : Bytes) :
    Option Transaction := do
  let (tx, _) ← transactionBase.read .accept blob
  expandTransaction1 scalarmultInvEight tx true

/--
The `unprunable_size` that serialising sets, a 32-bit field. Without inputs a version 2
transaction leaves it at the 0 of a fresh object.
-/
def unprunableSize (tx : Transaction) : UInt32 :=
  if tx.version = 1 then UInt32.ofNat (transactionPrefix.write tx.toTransactionPrefix).length
  else if tx.vin = [] then 0
  else UInt32.ofNat (transactionBase.write tx).length

end Velkavo.Cryptonote
