import Velkavo.ByteCodec.Text
import Velkavo.Cryptonote.FormatUtils
import Velkavo.Effects.Checks

namespace Velkavo.Core

open Cryptonote Rct

structure TxVerificationContext where
  verificationFailed : Bool := false
  lowMixin : Bool := false
  doubleSpend : Bool := false
  invalidInput : Bool := false
  invalidOutput : Bool := false
  overspend : Bool := false
  tooFewOutputs : Bool := false

def require (ok : Bool) (tvc : TxVerificationContext) : Except TxVerificationContext Unit :=
  if ok then .ok () else .error tvc

theorem require_eq_ok {ok : Bool} {tvc : TxVerificationContext} {u : Unit} :
    require ok tvc = .ok u ↔ ok = true := by
  rw [require]
  split_ifs with h <;> simp [h]

theorem require_bind {α : Type} {ok : Bool} {tvc : TxVerificationContext} {a : α}
    {f : Unit → Except TxVerificationContext α} :
    (require ok tvc >>= f) = .ok a ↔ ok = true ∧ f () = .ok a := by
  rw [Effects.bind_eq_ok]
  constructor
  · rintro ⟨u, hu, h⟩
    exact ⟨require_eq_ok.mp hu, h⟩
  · rintro ⟨hok, h⟩
    exact ⟨(), require_eq_ok.mpr hok, h⟩

structure CurveFunctions where
  checkKey : PublicKey → Bool
  scalarmultKey : Key → Key → Key
  zeroCommit : UInt64 → Key

def identity : Key := ⟨1 :: List.replicate 31 0, rfl⟩

def curveOrder : Key :=
  ⟨[0xed, 0xd3, 0xf5, 0x5c, 0x1a, 0x63, 0x12, 0x58, 0xd6, 0x9c, 0xf7, 0xa2, 0xde, 0xf9, 0xde, 0x14] ++
    List.replicate 15 0 ++ [0x10], rfl⟩

variable (k : CurveFunctions)

def toKey? : Txin → Option TxinToKey
  | .toKey txin => some txin
  | _ => none

def toKeyInputs (tx : Transaction) : List TxinToKey := tx.vin.filterMap toKey?

def checkInputsTypesSupported (tx : Transaction) : Bool := tx.vin.all fun i => (toKey? i).isSome

def checkOutsValid (tx : Transaction) : Bool :=
  tx.vout.all fun out =>
    match getOutputPublicKey out with
    | none => false
    | some key => (tx.version ≠ 1 || 0 < out.amount) && k.checkKey key

def sumFits (money : UInt64) : List UInt64 → Bool
  | [] => true
  | amount :: rest => if money > amount + money then false else sumFits (money + amount) rest

def checkMoneyOverflow (tx : Transaction) : Bool :=
  (checkInputsTypesSupported tx && sumFits 0 ((toKeyInputs tx).map TxinToKey.amount)) &&
    sumFits 0 (tx.vout.map TxOut.amount)

def getInputsMoneyAmount (tx : Transaction) : UInt64 := ((toKeyInputs tx).map TxinToKey.amount).foldl (· + ·) 0

def getOutsMoneyAmount (tx : Transaction) : UInt64 := (tx.vout.map TxOut.amount).foldl (· + ·) 0

def checkTxInputsKeyimagesDiff (tx : Transaction) : Bool :=
  checkInputsTypesSupported tx && decide ((toKeyInputs tx).map TxinToKey.kImage).Nodup

def checkTxInputsRingMembersDiff (tx : Transaction) (hfVersion : UInt8) : Bool :=
  if hfVersion ≥ 6 then
    checkInputsTypesSupported tx && (toKeyInputs tx).all fun txin => (txin.keyOffsets.drop 1).all (· ≠ 0)
  else true

def checkTxInputsKeyimagesDomain (tx : Transaction) : Bool :=
  checkInputsTypesSupported tx && (toKeyInputs tx).all fun txin =>
    txin.kImage ≠ identity && k.scalarmultKey txin.kImage curveOrder = identity

def hfVersionViewTags : UInt8 := 15

def isToKey : TxoutTarget → Bool
  | .toKey _ => true
  | _ => false

def isToTaggedKey : TxoutTarget → Bool
  | .toTaggedKey _ _ => true
  | _ => false

def checkOutputTypes (tx : Transaction) (hfVersion : UInt8) : Bool :=
  if hfVersion > hfVersionViewTags then tx.vout.all fun o => isToTaggedKey o.target
  else if hfVersion < hfVersionViewTags then tx.vout.all fun o => isToKey o.target
  else (tx.vout.all fun o => isToKey o.target) || tx.vout.all fun o => isToTaggedKey o.target

def checkTxSemantic (tx : Transaction) (hfVersion : UInt8) : Except TxVerificationContext Unit := do
  let invalidInput : TxVerificationContext := { verificationFailed := true, invalidInput := true }
  let invalidOutput : TxVerificationContext := { verificationFailed := true, invalidOutput := true }
  let overspend : TxVerificationContext := { verificationFailed := true, overspend := true }
  require (!tx.vin.isEmpty) invalidInput
  require (checkInputsTypesSupported tx) invalidInput
  require (checkOutsValid k tx) invalidOutput
  require (tx.version ≤ 1 || tx.rctSignatures.outPk.length = tx.vout.length) invalidOutput
  require (checkMoneyOverflow tx) overspend
  require (tx.version ≠ 1 || getInputsMoneyAmount tx > getOutsMoneyAmount tx) overspend
  require (checkTxInputsKeyimagesDiff tx) invalidInput
  require (checkTxInputsRingMembersDiff tx hfVersion) invalidInput
  require (checkTxInputsKeyimagesDomain k tx) invalidInput
  require (checkOutputTypes tx hfVersion) invalidOutput

theorem nodup_kImage_of_checkTxSemantic {tx : Transaction} {hfVersion : UInt8}
    (h : checkTxSemantic k tx hfVersion = .ok ()) : ((toKeyInputs tx).map TxinToKey.kImage).Nodup := by
  simp only [checkTxSemantic, require_bind] at h
  have hdiff := h.2.2.2.2.2.2.1
  rw [checkTxInputsKeyimagesDiff, Bool.and_eq_true] at hdiff
  exact of_decide_eq_true hdiff.2

theorem mem_toKeyInputs {tx : Transaction} {txin : TxinToKey} :
    txin ∈ toKeyInputs tx ↔ Txin.toKey txin ∈ tx.vin := by
  rw [toKeyInputs, List.mem_filterMap]
  constructor
  · rintro ⟨i, hi, hsome⟩
    cases i with
    | toKey txin' =>
      cases hsome
      exact hi
    | gen height => cases hsome
    | toScript prev prevout sigset => cases hsome
    | toScripthash prev prevout script sigset => cases hsome
  · intro hi
    exact ⟨_, hi, rfl⟩

end Velkavo.Core
