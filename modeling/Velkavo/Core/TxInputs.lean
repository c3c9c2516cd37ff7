import Velkavo.Containers.PartialLookup
import Velkavo.Containers.UnorderedMap
import Velkavo.Core.TxSemantic
import Velkavo.Cryptonote.KeyOffsets

namespace Velkavo.Core

open ByteCodec Cryptonote Rct PartialLookup

structure StoredOutput where
  amount : UInt64
  pubkey : PublicKey
  unlockTime : UInt64
  commitment : Key

structure StoredBlock where
  outputs : List StoredOutput
  keyImages : List KeyImage

structure OutputData where
  pubkey : PublicKey
  unlockTime : UInt64
  height : ℕ
  commitment : Key

structure TxChain where
  blocks : List StoredBlock
  scanTable : UnorderedMap Hash (UnorderedMap KeyImage (List OutputData))

structure InputVerifier where
  getTransactionPrefixHash : Transaction → Hash
  getTransactionHash : Transaction → Hash
  makeInputVerificationId : Hash → List (List CtKey) → Hash
  verInputProofsRings : Transaction → List (List CtKey) → Bool

variable (k : CurveFunctions) (v : InputVerifier)

def TxChain.height (s : TxChain) : ℕ := s.blocks.length

def StoredOutput.data (o : StoredOutput) (height : ℕ) : OutputData where
  pubkey := o.pubkey
  unlockTime := o.unlockTime
  height := height
  commitment := if o.amount = 0 then o.commitment else k.zeroCommit o.amount

def outputsFrom (amount : UInt64) (height : ℕ) : List StoredBlock → List OutputData
  | [] => []
  | b :: rest =>
    (b.outputs.filter (·.amount = amount)).map (·.data k height) ++ outputsFrom amount (height + 1) rest

def getNumOutputs (s : TxChain) (amount : UInt64) : ℕ := (outputsFrom k amount 0 s.blocks).length

def getOutputKey (s : TxChain) (amount index : UInt64) : Option OutputData :=
  (outputsFrom k amount 0 s.blocks)[index.toNat]?

def getOutputKeys (s : TxChain) (amount : UInt64) (offsets : List UInt64) : List OutputData :=
  lookupWhile (getOutputKey k s amount) offsets

def haveTxKeyimgAsSpent (s : TxChain) (kImage : KeyImage) : Bool :=
  s.blocks.any fun b => b.keyImages.contains kImage

def cryptonoteMaxBlockNumber : UInt64 := 500000000

/-- `now` is the clock, or from version 13 on the adjusted time of the chain. -/
def isTxSpendtimeUnlocked (s : TxChain) (now : UInt64) (hfVersion : UInt8) (unlockTime : UInt64) : Bool :=
  if unlockTime < cryptonoteMaxBlockNumber then unlockTime.toNat ≤ s.height
  else now + (if hfVersion < 2 then 60 else 120) ≥ unlockTime

def ring (txin : TxinToKey) : List UInt64 := relativeOutputOffsetsToAbsolute txin.keyOffsets

def fetchOutputs (s : TxChain) (txPrefixHash : Hash) (txin : TxinToKey) : Option (List OutputData) :=
  let absoluteOffsets := ring txin
  match (s.scanTable.find? txPrefixHash).bind (·.find? txin.kImage) with
  | none =>
    let outputs := getOutputKeys k s txin.amount absoluteOffsets
    if absoluteOffsets.length ≠ outputs.length then none else some outputs
  | some outputs =>
    if outputs.length < absoluteOffsets.length ∧ 0 < outputs.length then
      let addOffsets := absoluteOffsets.drop outputs.length
      let addOutputs := getOutputKeys k s txin.amount addOffsets
      if addOffsets.length ≠ addOutputs.length then none else some (outputs ++ addOutputs)
    else some outputs

/-- Only the height of the last member is taken into account. -/
def scanMembers (s : TxChain) (now : UInt64) (hfVersion : UInt8) (amount : UInt64) :
    List UInt64 → List OutputData → ℕ → Option (List CtKey × ℕ)
  | [], _, pmax => some ([], pmax)
  | i :: rest, outputs, pmax => do
    let output ← outputs.head?.or (getOutputKey k s amount i)
    if isTxSpendtimeUnlocked s now hfVersion output.unlockTime then
      let pmax := if rest.isEmpty ∧ pmax < output.height then output.height else pmax
      let (keys, pmax) ← scanMembers s now hfVersion amount rest outputs.tail pmax
      some ({ dest := output.pubkey, mask := output.commitment } :: keys, pmax)
    else none

def scanOutputkeysForIndexes (s : TxChain) (now : UInt64) (hfVersion : UInt8) (txPrefixHash : Hash)
    (txin : TxinToKey) (pmax : ℕ) : Option (List CtKey × ℕ) :=
  if txin.keyOffsets.isEmpty then none
  else do
    let outputs ← fetchOutputs k s txPrefixHash txin
    scanMembers k s now hfVersion txin.amount (ring txin) outputs pmax

def checkTxInput (s : TxChain) (now : UInt64) (hfVersion : UInt8) (tx : Transaction) (sigIndex : ℕ)
    (txin : TxinToKey) (pmax : ℕ) : Option (List CtKey × ℕ) := do
  let (keys, pmax) ← scanOutputkeysForIndexes k s now hfVersion (v.getTransactionPrefixHash tx) txin pmax
  if txin.keyOffsets.length ≠ keys.length then none
  else if tx.version = 1 ∧ (tx.signatures[sigIndex]?.getD []).length ≠ keys.length then none
  else some (keys, pmax)

structure MixinCount where
  nUnmixable : ℕ := 0
  nMixable : ℕ := 0
  minActualMixin : ℕ := 2 ^ 64 - 1
  maxActualMixin : ℕ := 0

def minMixin (hfVersion : UInt8) : ℕ :=
  if hfVersion ≥ 15 then 15 else if hfVersion ≥ 8 then 10 else if hfVersion ≥ 7 then 6
  else if hfVersion ≥ 6 then 4 else 2

def countMixin (s : TxChain) (hfVersion : UInt8) (m : MixinCount) : Txin → MixinCount
  | .toKey txin =>
    let m :=
      if txin.amount = 0 then { m with nMixable := m.nMixable + 1 }
      else if getNumOutputs k s txin.amount ≤ minMixin hfVersion then { m with nUnmixable := m.nUnmixable + 1 }
      else { m with nMixable := m.nMixable + 1 }
    let ringMixin := (txin.keyOffsets.length + 2 ^ 64 - 1) % 2 ^ 64
    { m with minActualMixin := min ringMixin m.minActualMixin, maxActualMixin := max ringMixin m.maxActualMixin }
  | _ => m

def ringSizeOk (m : MixinCount) (hfVersion : UInt8) : Bool :=
  if m.minActualMixin < minMixin hfVersion ∧ ¬(hfVersion = 15 ∧ m.minActualMixin = 10) then
    m.nUnmixable ≠ 0 && m.nMixable ≤ 1
  else
    !((hfVersion > 15 && m.minActualMixin > 15) ||
      (hfVersion = 15 && m.minActualMixin ≠ 15 && m.minActualMixin ≠ 10) ||
      (hfVersion < 15 && hfVersion ≥ 10 && m.minActualMixin > 10) ||
      ((hfVersion = 8 || hfVersion = 9) && m.minActualMixin ≠ 10))

def minTxVersion (m : MixinCount) (hfVersion : UInt8) : UInt64 :=
  if m.nUnmixable > 0 then 1 else if hfVersion ≥ 6 then 2 else 1

def maxTxVersion (hfVersion : UInt8) : UInt64 := if hfVersion ≤ 3 then 1 else 2

def checkMixin (s : TxChain) (tx : Transaction) (hfVersion : UInt8) : Except TxVerificationContext Unit :=
  if hfVersion ≥ 2 then do
    let m := tx.vin.foldl (countMixin k s hfVersion) {}
    require (hfVersion < 12 || m.minActualMixin = m.maxActualMixin) { lowMixin := true }
    require (ringSizeOk m hfVersion) { lowMixin := true }
    require (tx.version ≤ maxTxVersion hfVersion) { verificationFailed := true }
    require (minTxVersion m hfVersion ≤ tx.version) { verificationFailed := true }
  else .ok ()

def checkSortedIns (tx : Transaction) (hfVersion : UInt8) : Bool :=
  hfVersion < 7 || decide (((toKeyInputs tx).map fun txin => stringOrder txin.kImage.1).IsChain (· > ·))

def checkIns (s : TxChain) (now : UInt64) (hfVersion : UInt8) (tx : Transaction) :
    ℕ → List Txin → ℕ → Except TxVerificationContext (List (List CtKey) × ℕ)
  | _, [], pmax => .ok ([], pmax)
  | sigIndex, .toKey txin :: rest, pmax => do
    require (!txin.keyOffsets.isEmpty) {}
    require (!haveTxKeyimgAsSpent s txin.kImage) { doubleSpend := true }
    require (tx.version ≠ 1 || sigIndex < tx.signatures.length) {}
    match checkTxInput k v s now hfVersion tx sigIndex txin pmax with
    | none => .error {}
    | some (keys, pmax) =>
      let (pubkeys, pmax) ← checkIns s now hfVersion tx (sigIndex + 1) rest pmax
      .ok (keys :: pubkeys, pmax)
  | _, _ :: _, _ => .error {}

def verifyIns (tx : Transaction) (pubkeys : List (List CtKey)) (validId : Hash) :
    Except TxVerificationContext Hash := do
  let id := v.makeInputVerificationId (v.getTransactionHash tx) pubkeys
  if validId ≠ nullHash ∧ id = validId then .ok validId
  else
    require (v.verInputProofsRings tx pubkeys) {}
    .ok id

def cryptonoteDefaultTxSpendableAge : ℕ := 10

def checkTxInputs (s : TxChain) (now : UInt64) (hfVersion : UInt8) (tx : Transaction) (validId : Hash) :
    Except TxVerificationContext (Hash × ℕ) := do
  require (hfVersion < 12 || tx.version < 2 || 2 ≤ tx.vout.length) { tooFewOutputs := true }
  checkMixin k s tx hfVersion
  require (checkSortedIns tx hfVersion) { verificationFailed := true }
  let (pubkeys, pmax) ← checkIns k v s now hfVersion tx 0 tx.vin 0
  require (hfVersion < 12 || pmax + cryptonoteDefaultTxSpendableAge ≤ s.height) {}
  let id ← verifyIns v tx pubkeys validId
  .ok (id, pmax)

end Velkavo.Core
