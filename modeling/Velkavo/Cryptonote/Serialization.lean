import Velkavo.Cryptonote.Basic
import Velkavo.Ringct.RctWellFormed

namespace Velkavo.Cryptonote

open ByteCodec ByteCodec.Codec

def txoutToScript : Codec TxoutToScript :=
  view (seq (container (blob 32)) byteString) (fun o => (o.keys, o.script)) (fun x => ⟨x.1, x.2⟩)
    fun _ _ => rfl

instance : Exact txoutToScript := exact_view fun _ => rfl

namespace TxoutTarget

def tag : TxoutTarget → UInt8
  | toScript _ => 0x0
  | toScripthash _ => 0x1
  | toKey _ => 0x2
  | toTaggedKey _ _ => 0x3

def branch (t : UInt8) : Codec TxoutTarget :=
  if t = 0x0 then
    inject txoutToScript (fun | toScript o => some o | _ => none) toScript fun _ => rfl
  else if t = 0x1 then
    inject (blob 32) (fun | toScripthash h => some h | _ => none) toScripthash fun _ => rfl
  else if t = 0x2 then
    inject (blob 32) (fun | toKey k => some k | _ => none) toKey fun _ => rfl
  else if t = 0x3 then
    inject (seq (blob 32) (blob 1)) (fun | toTaggedKey k v => some (k, v) | _ => none)
      (fun x => toTaggedKey x.1 x.2) fun _ => rfl
  else fail

theorem tag_of_valid (t : UInt8) (o : TxoutTarget) (h : (branch t).valid o = true) : tag o = t := by
  unfold branch at h
  split_ifs at h <;> cases o <;> simp_all [inject, fail, tag]

instance (t : UInt8) : Exact (branch t) := by
  unfold branch
  split_ifs
  · exact exact_inject fun o _ h => by cases o <;> simp_all
  · exact exact_inject fun o _ h => by cases o <;> simp_all
  · exact exact_inject fun o _ h => by cases o <;> simp_all
  · refine exact_inject fun o x h => ?_
    cases o <;> simp at h
    subst h
    rfl
  · exact ⟨fun _ => rfl⟩

def codec : Codec TxoutTarget := tagged byte tag branch tag_of_valid

instance : Exact codec := exact_tagged inferInstance

end TxoutTarget

namespace Txin

def tag : Txin → UInt8
  | gen _ => 0xff
  | toScript _ _ _ => 0x0
  | toScripthash _ _ _ _ => 0x1
  | toKey _ => 0x2

def toKeyCodec : Codec TxinToKey :=
  view (seq varint64 (seq (container varint64) (blob 32))) (fun t => (t.amount, t.keyOffsets, t.kImage))
    (fun x => ⟨x.1, x.2.1, x.2.2⟩) fun _ _ => rfl

instance : Exact toKeyCodec := exact_view fun _ => rfl

def branch (t : UInt8) : Codec Txin :=
  if t = 0xff then
    inject varint64 (fun | gen h => some h | _ => none) gen fun _ => rfl
  else if t = 0x0 then
    inject (seq (blob 32) (seq varint64 byteString))
      (fun | toScript prev prevout sigset => some (prev, prevout, sigset) | _ => none)
      (fun x => toScript x.1 x.2.1 x.2.2) fun _ => rfl
  else if t = 0x1 then
    inject (seq (blob 32) (seq varint64 (seq txoutToScript byteString)))
      (fun | toScripthash prev prevout script sigset => some (prev, prevout, script, sigset) | _ => none)
      (fun x => toScripthash x.1 x.2.1 x.2.2.1 x.2.2.2) fun _ => rfl
  else if t = 0x2 then
    inject toKeyCodec (fun | toKey t => some t | _ => none) toKey fun _ => rfl
  else fail

theorem tag_of_valid (t : UInt8) (i : Txin) (h : (branch t).valid i = true) : tag i = t := by
  unfold branch at h
  split_ifs at h <;> cases i <;> simp_all [inject, fail, tag]

instance (t : UInt8) : Exact (branch t) := by
  unfold branch
  split_ifs
  · exact exact_inject fun i x h => by cases i <;> simp_all
  · refine exact_inject fun i x h => ?_
    cases i <;> simp at h
    subst h
    rfl
  · refine exact_inject fun i x h => ?_
    cases i <;> simp at h
    subst h
    rfl
  · exact exact_inject fun i x h => by cases i <;> simp_all
  · exact ⟨fun _ => rfl⟩

def codec : Codec Txin := tagged byte tag branch tag_of_valid

instance : Exact codec := exact_tagged inferInstance

instance : Consumes codec := inferInstanceAs (Consumes (tagged byte tag branch tag_of_valid))

end Txin

def txOut : Codec TxOut :=
  view (seq varint64 TxoutTarget.codec) (fun o => (o.amount, o.target)) (fun x => ⟨x.1, x.2⟩)
    fun _ _ => rfl

instance : Exact txOut := exact_view fun _ => rfl

instance : Consumes txOut := inferInstanceAs (Consumes (view (seq varint64 TxoutTarget.codec) _ _ _))

def versionOk (version : UInt64) : Bool := !(version == 0 || currentTransactionVersion < version)

def transactionPrefix : Codec TransactionPrefix :=
  view
    (seq (checked varint64 versionOk)
      (seq varint64 (seq (container Txin.codec) (seq (container txOut) byteString))))
    (fun p => (p.version, p.unlockTime, p.vin, p.vout, p.extra))
    (fun (version, unlockTime, vin, vout, extra) => ⟨version, unlockTime, vin, vout, extra⟩)
    fun _ _ => rfl

instance : Exact transactionPrefix := exact_view fun _ => rfl

def expectedSignatures (vin : List Txin) (signatures : List (List Signature)) : List (List Signature) :=
  if signatures.isEmpty then vin.map fun _ => [] else signatures

def signatures (pruned : Bool) (vin : List Txin) : Codec (List (List Signature)) :=
  view (each (vin.map fun i => if pruned then absent [] else many i.getSignatureSize (blob 64)))
    (expectedSignatures vin) id fun l h => by
      cases l with
      | cons s l => rfl
      | nil =>
        cases vin with
        | nil => rfl
        | cons i vin => simp [each, inject, uncons] at h

def transactionBody (pruned : Bool) (pre : TransactionPrefix) :
    Codec (List (List Signature) × Rct.RctSig) :=
  if pre.version = 1 then seq (signatures pruned pre.vin) (absent default)
  else if pre.vin.isEmpty then seq (absent []) (absent default)
  else seq (absent []) (Rct.rctSig pruned pre.vin.length pre.vout.length (mixin pre.vin))

def transaction (pruned : Bool) : Codec Transaction :=
  view (andThen transactionPrefix (transactionBody pruned))
    (fun tx => (tx.toTransactionPrefix, tx.signatures, tx.rctSignatures))
    (fun x => ⟨x.1, x.2.1, x.2.2, false⟩) fun _ _ => rfl

def blockHeader : Codec BlockHeader :=
  view (seq varint8 (seq varint8 (seq varint64 (seq (blob 32) uint32))))
    (fun b => (b.majorVersion, b.minorVersion, b.timestamp, b.prevId, b.nonce))
    (fun (majorVersion, minorVersion, timestamp, prevId, nonce) =>
      ⟨majorVersion, minorVersion, timestamp, prevId, nonce⟩) fun _ _ => rfl

instance : Exact blockHeader := exact_view fun _ => rfl

def block (pruned : Bool) : Codec Block :=
  view
    (seq blockHeader
      (seq (transaction pruned) (checked (container (blob 32)) fun l => decide (l.length ≤ maxTxPerBlock))))
    (fun b => (b.toBlockHeader, b.minerTx, b.txHashes)) (fun x => ⟨x.1, x.2.1, x.2.2⟩) fun _ _ => rfl

end Velkavo.Cryptonote
