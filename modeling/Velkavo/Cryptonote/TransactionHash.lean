import Velkavo.Cryptonote.PrunedForm

namespace Velkavo.Cryptonote

open ByteCodec ByteCodec.Codec Rct

structure TxObject where
  tx : Transaction
  hash : Option Hash
  prunableHash : Option Hash
  prefixSize : UInt32
  unprunableSize : UInt32

variable (cnFastHash : Bytes → Hash)

def hashPrefix (tx : Transaction) : Hash := cnFastHash (transactionPrefix.write tx.toTransactionPrefix)

def hashParts (parts : Hash × Hash × Hash) : Hash :=
  cnFastHash (parts.1.bytes ++ (parts.2.1.bytes ++ parts.2.2.bytes))

def baseBytes (tx : Transaction) : Bytes :=
  (rctSigBase tx.vin.length tx.vout.length).write tx.rctSignatures.toRctSigBase

def prunableCodec (tx : Transaction) : Codec RctSigPrunable :=
  rctSigPrunable tx.rctSignatures.type tx.vin.length tx.vout.length (mixin tx.vin)

namespace TxObject

def fresh (tx : Transaction) : TxObject := ⟨tx, none, none, 0, 0⟩

/-- `tx_to_blob`. Without inputs a version 2 transaction keeps the unprunable size that the object has. -/
def toBlob (o : TxObject) : TxObject × Bytes :=
  let prefixSize := UInt32.ofNat (transactionPrefix.write o.tx.toTransactionPrefix).length
  let unprunableSize :=
    if o.tx.version = 1 then prefixSize
    else if o.tx.vin = [] then o.unprunableSize
    else UInt32.ofNat (transactionBase.write o.tx).length
  ({ o with prefixSize := prefixSize, unprunableSize := unprunableSize }, (transaction o.tx.pruned).write o.tx)

def parse (smul : Key → Key) (blob : Bytes) : Option TxObject := do
  let tx ← parseAndValidateTxFromBlob smul blob
  let (_, afterPrefix) ← transactionPrefix.read .accept blob
  let (_, afterBase) ← transactionBase.read .accept blob
  let prefixSize := UInt32.ofNat (blob.length - afterPrefix.length)
  let unprunableSize :=
    if tx.version = 1 then prefixSize
    else if tx.vin = [] then 0
    else UInt32.ofNat (blob.length - afterBase.length)
  some ⟨tx, none, none, prefixSize, unprunableSize⟩

def calculateTransactionPrunableHash (o : TxObject) (blob : Option Bytes) : Option Hash :=
  let recalculated :=
    if (prunableCodec o.tx).valid o.tx.rctSignatures.p then
      some (cnFastHash ((prunableCodec o.tx).write o.tx.rctSignatures.p))
    else none
  if o.tx.version = 1 then none
  else
    match blob with
    | none => recalculated
    | some blob =>
      if o.unprunableSize = 0 then recalculated
      else if blob.length < o.unprunableSize.toNat then none
      else some (cnFastHash (blob.drop o.unprunableSize.toNat))

def getTransactionPrunableHash (o : TxObject) (blob : Option Bytes) : TxObject × Option Hash :=
  match o.prunableHash with
  | some h => (o, some h)
  | none =>
    match o.calculateTransactionPrunableHash cnFastHash blob with
    | none => (o, none)
    | some h => ({ o with prunableHash := some h }, some h)

def getPrunedTransactionHash (o : TxObject) (prunedDataHash : Hash) : TxObject × Option Hash :=
  if o.tx.version ≤ 1 then (o, none)
  else if (rctSigBase o.tx.vin.length o.tx.vout.length).valid o.tx.rctSignatures.toRctSigBase then
    let prunable := if o.tx.rctSignatures.type = .null then nullHash else prunedDataHash
    let res := hashParts cnFastHash (hashPrefix cnFastHash o.tx, cnFastHash (baseBytes o.tx), prunable)
    ({ o with hash := some res }, some res)
  else (o, none)

def calculateTransactionHash (o : TxObject) : TxObject × Option Hash :=
  if o.tx.pruned then (o, none)
  else
    let (o, blob) := o.toBlob
    if o.tx.version = 1 then (o, some (cnFastHash blob))
    else if o.prefixSize ≤ o.unprunableSize ∧ o.unprunableSize.toNat ≤ blob.length then
      let base := (blob.drop o.prefixSize.toNat).take (o.unprunableSize.toNat - o.prefixSize.toNat)
      let prunable :=
        if o.tx.rctSignatures.type = .null then some nullHash
        else o.calculateTransactionPrunableHash cnFastHash (some blob)
      (o, prunable.map fun h => hashParts cnFastHash (hashPrefix cnFastHash o.tx, cnFastHash base, h))
    else (o, none)

def getTransactionHash (o : TxObject) : TxObject × Option Hash :=
  match o.hash with
  | some h => (o, some h)
  | none =>
    match o.calculateTransactionHash cnFastHash with
    | (o, none) => (o, none)
    | (o, some h) => ({ o with hash := some h }, some h)

end TxObject

def prunableBytes (tx : Transaction) : Bytes :=
  if tx.rctSignatures.type = .null then [] else (prunableCodec tx).write tx.rctSignatures.p

def threePartHash (tx : Transaction) : Hash :=
  hashParts cnFastHash (hashPrefix cnFastHash tx, cnFastHash (baseBytes tx),
    if tx.rctSignatures.type = .null then nullHash else cnFastHash (prunableBytes tx))

inductive HashCall
  | toBlob
  | calculateHash
  | transactionHash
  | prunableHash (withBlob : Bool)
  | prunedHash

namespace TxObject

def call (o : TxObject) : HashCall → TxObject × Option Hash
  | .toBlob => (o.toBlob.1, none)
  | .calculateHash => o.calculateTransactionHash cnFastHash
  | .transactionHash => o.getTransactionHash cnFastHash
  | .prunableHash withBlob =>
    o.getTransactionPrunableHash cnFastHash (if withBlob then some ((transaction false).write o.tx) else none)
  | .prunedHash => o.getPrunedTransactionHash cnFastHash (cnFastHash (prunableBytes o.tx))

def after (o : TxObject) (calls : List HashCall) : TxObject := calls.foldl (fun o c => (o.call cnFastHash c).1) o

end TxObject

def Answers (tx : Transaction) (answer : Option Hash) : HashCall → Prop
  | .toBlob => True
  | .calculateHash => answer = some (threePartHash cnFastHash tx)
  | .transactionHash => answer = some (threePartHash cnFastHash tx)
  | .prunableHash _ => tx.rctSignatures.type ≠ .null → answer = some (cnFastHash (prunableBytes tx))
  | .prunedHash => answer = some (threePartHash cnFastHash tx)

section

variable {tx : Transaction}

theorem write_prunableCodec : (prunableCodec tx).write tx.rctSignatures.p = prunableBytes tx := by
  unfold prunableBytes
  by_cases hnull : tx.rctSignatures.type = .null
  · rw [if_pos hnull, prunableCodec, rctSigPrunable, if_pos hnull]
    split_ifs <;> rfl
  · rw [if_neg hnull]

theorem write_eq_parts (hversion : tx.version = 2) (hvin : tx.vin ≠ []) :
    (transaction false).write tx = transactionBase.write tx ++ prunableBytes tx := by
  unfold prunableBytes
  by_cases hnull : tx.rctSignatures.type = .null
  · rw [if_pos hnull]
    simp [transactionBase, transaction, transactionBody, view, andThen, dep, seq, hversion, hvin, hnull, absent, rctSig]
  · rw [if_neg hnull]
    exact write_eq_base_prunable hversion hvin hnull

theorem valid_prunableCodec (hwf : tx.WellFormed) (hversion : tx.version = 2) (hvin : tx.vin ≠ [])
    (hnull : tx.rctSignatures.type ≠ .null) : (prunableCodec tx).valid tx.rctSignatures.p = true :=
  (valid_rctSigPrunable hnull _ _ _ _).mpr ((hwf.rctSignatures hversion hvin).2 hnull)

theorem parts_eq_of_serialised {tx' : Transaction} (hwf : tx.WellFormed) (hversion : tx.version = 2)
    (hvin : tx.vin ≠ []) (hser : tx'.serialised = tx.serialised) :
    tx'.WellFormed ∧ tx'.toTransactionPrefix = tx.toTransactionPrefix ∧
      tx'.rctSignatures.type = tx.rctSignatures.type ∧ transactionBase.write tx' = transactionBase.write tx ∧
      prunableBytes tx' = prunableBytes tx := by
  have hwf' : tx'.WellFormed := by
    rw [← wellFormed_serialised, hser, wellFormed_serialised]
    exact hwf
  have hpre : tx'.toTransactionPrefix = tx.toTransactionPrefix := by
    have hser' := congrArg (fun t : Transaction => t.toTransactionPrefix) hser
    exact hser'
  have hversion' : tx'.version = 2 := by rw [hpre, hversion]
  have hvin' : tx'.vin ≠ [] := by rwa [hpre]
  have hbase : tx'.rctSignatures.toRctSigBase.serialised = tx.rctSignatures.toRctSigBase.serialised := by
    have hrct := congrArg (fun t : Transaction => t.rctSignatures.toRctSigBase) hser
    rwa [rctSignatures_serialised hversion' hvin', rctSignatures_serialised hversion hvin] at hrct
  have hwrite : transactionBase.write tx' = transactionBase.write tx := by
    have hwfBase' := (hwf'.rctSignatures hversion' hvin').1
    rw [write_base_eq hversion' hvin', write_base_eq hversion hvin, ← write_base_serialised hwfBase', hbase, hpre,
      write_base_serialised (hwf.rctSignatures hversion hvin).1]
  refine ⟨hwf', hpre, ?_, hwrite, ?_⟩
  · rw [← type_serialised tx'.rctSignatures.toRctSigBase, hbase, type_serialised]
  · have hblob : (transaction false).write tx' = (transaction false).write tx := by
      rw [← write_serialised hwf', hser, write_serialised hwf]
    rw [write_eq_parts hversion' hvin', write_eq_parts hversion hvin, hwrite] at hblob
    exact List.append_cancel_left hblob

theorem baseBytes_congr {tx' : Transaction} (hversion : tx.version = 2) (hvin : tx.vin ≠ [])
    (hpre : tx'.toTransactionPrefix = tx.toTransactionPrefix)
    (hwrite : transactionBase.write tx' = transactionBase.write tx) : baseBytes tx' = baseBytes tx := by
  rw [write_base_eq hversion hvin, write_base_eq (by rw [hpre, hversion]) (by rwa [hpre])] at hwrite
  rw [hpre] at hwrite
  unfold baseBytes
  rw [hpre]
  exact List.append_cancel_left hwrite

end

/-- A full version 2 transaction with inputs, and nothing cached that is not its own. -/
structure TxObject.Coherent (o : TxObject) : Prop where
  wellFormed : o.tx.WellFormed
  full : o.tx.pruned = false
  version : o.tx.version = 2
  vin : o.tx.vin ≠ []
  size_lt : (transactionBase.write o.tx).length < 2 ^ 32
  hash : ∀ h, o.hash = some h → h = threePartHash cnFastHash o.tx
  prunableHash : ∀ h, o.prunableHash = some h → h = cnFastHash (prunableBytes o.tx)
  unprunableSize : o.unprunableSize = 0 ∨ o.unprunableSize.toNat = (transactionBase.write o.tx).length

namespace TxObject.Coherent

variable {cnFastHash} {o : TxObject}

theorem calculatePrunable (ho : o.Coherent cnFastHash) {blob : Option Bytes}
    (hblob : blob = none ∨ blob = some ((transaction false).write o.tx)) :
    (∀ h, o.calculateTransactionPrunableHash cnFastHash blob = some h → h = cnFastHash (prunableBytes o.tx)) ∧
      (o.tx.rctSignatures.type ≠ .null →
        o.calculateTransactionPrunableHash cnFastHash blob = some (cnFastHash (prunableBytes o.tx))) := by
  have hversion : o.tx.version ≠ 1 := by rw [ho.version]; decide
  have hrecalculated : (∀ h, (if (prunableCodec o.tx).valid o.tx.rctSignatures.p then
          some (cnFastHash ((prunableCodec o.tx).write o.tx.rctSignatures.p)) else none) = some h →
        h = cnFastHash (prunableBytes o.tx)) ∧
      (o.tx.rctSignatures.type ≠ .null → (if (prunableCodec o.tx).valid o.tx.rctSignatures.p then
          some (cnFastHash ((prunableCodec o.tx).write o.tx.rctSignatures.p)) else none) =
        some (cnFastHash (prunableBytes o.tx))) := by
    rw [write_prunableCodec]
    constructor
    · intro h hh
      split_ifs at hh
      exact (Option.some.inj hh).symm
    · intro hnull
      rw [if_pos (valid_prunableCodec ho.wellFormed ho.version ho.vin hnull)]
  unfold calculateTransactionPrunableHash
  rw [if_neg hversion]
  rcases hblob with rfl | rfl
  · exact hrecalculated
  by_cases hzero : o.unprunableSize = 0
  · dsimp only
    rw [if_pos hzero]
    exact hrecalculated
  have hsize := ho.unprunableSize.resolve_left hzero
  dsimp only
  rw [if_neg hzero, hsize, write_eq_parts ho.version ho.vin, if_neg (by rw [List.length_append]; omega), List.drop_left]
  exact ⟨fun h hh => (Option.some.inj hh).symm, fun _ => rfl⟩

theorem toBlob (ho : o.Coherent cnFastHash) :
    o.toBlob.1.Coherent cnFastHash ∧ o.toBlob.1.tx = o.tx ∧ o.toBlob.2 = (transaction false).write o.tx ∧
      o.toBlob.1.prefixSize.toNat = (transactionPrefix.write o.tx.toTransactionPrefix).length ∧
      o.toBlob.1.unprunableSize.toNat = (transactionBase.write o.tx).length := by
  have hsize := ho.size_lt
  have hunprunable : o.toBlob.1.unprunableSize.toNat = (transactionBase.write o.tx).length := by
    change (if o.tx.version = 1 then _ else if o.tx.vin = [] then _ else _ : UInt32).toNat = _
    rw [if_neg (by rw [ho.version]; decide), if_neg ho.vin]
    exact UInt32.toNat_ofNat_of_lt' hsize
  have hhead : (transactionPrefix.write o.tx.toTransactionPrefix).length < 2 ^ 32 := by
    rw [write_base_eq ho.version ho.vin, List.length_append] at hsize
    omega
  refine ⟨⟨ho.wellFormed, ho.full, ho.version, ho.vin, hsize, ho.hash, ho.prunableHash, Or.inr hunprunable⟩, rfl, ?_,
    UInt32.toNat_ofNat_of_lt' hhead, hunprunable⟩
  change (transaction o.tx.pruned).write o.tx = _
  rw [ho.full]

theorem calculateHash (ho : o.Coherent cnFastHash) :
    o.calculateTransactionHash cnFastHash = (o.toBlob.1, some (threePartHash cnFastHash o.tx)) := by
  obtain ⟨ho', htx, hblob, hhead, hunprunable⟩ := ho.toBlob
  unfold calculateTransactionHash
  rw [ho.full, if_neg Bool.false_ne_true]
  generalize o.toBlob = r at ho' htx hblob hhead hunprunable ⊢
  obtain ⟨o', blob⟩ := r
  dsimp only at ho' htx hblob hhead hunprunable ⊢
  have hbase := write_base_eq ho.version ho.vin
  have hlen := congrArg List.length hbase
  rw [List.length_append] at hlen
  have hle : o'.prefixSize ≤ o'.unprunableSize ∧ o'.unprunableSize.toNat ≤ blob.length := by
    rw [UInt32.le_iff_toNat_le, hblob, write_eq_parts ho.version ho.vin, List.length_append]
    omega
  have hslice : (blob.drop o'.prefixSize.toNat).take (o'.unprunableSize.toNat - o'.prefixSize.toNat) =
      baseBytes o.tx := by
    rw [hblob, write_eq_parts ho.version ho.vin, hbase, List.append_assoc, hhead, List.drop_left, hunprunable, hlen,
      Nat.add_sub_cancel_left]
    exact List.take_left
  rw [if_neg (by rw [htx, ho.version]; decide), if_pos hle, hslice, threePartHash, htx]
  by_cases hnull : o.tx.rctSignatures.type = .null
  · rw [if_pos hnull, if_pos hnull]
    rfl
  · have hprunable := (ho'.calculatePrunable (Or.inr rfl)).2 (htx ▸ hnull)
    rw [if_neg hnull, if_neg hnull, hblob, ← htx, hprunable]
    rfl

theorem getHash (ho : o.Coherent cnFastHash) :
    (o.getTransactionHash cnFastHash).1.Coherent cnFastHash ∧ (o.getTransactionHash cnFastHash).1.tx = o.tx ∧
      (o.getTransactionHash cnFastHash).2 = some (threePartHash cnFastHash o.tx) := by
  unfold getTransactionHash
  cases hcached : o.hash with
  | some h => exact ⟨ho, rfl, congrArg some (ho.hash h hcached)⟩
  | none =>
    rw [ho.calculateHash]
    obtain ⟨ho', htx, -⟩ := ho.toBlob
    refine ⟨{ ho' with hash := fun h hh => ?_ }, htx, rfl⟩
    rw [← Option.some.inj hh]
    exact congrArg (threePartHash cnFastHash) htx.symm

theorem getPrunableHash (ho : o.Coherent cnFastHash) {blob : Option Bytes}
    (hblob : blob = none ∨ blob = some ((transaction false).write o.tx)) :
    (o.getTransactionPrunableHash cnFastHash blob).1.Coherent cnFastHash ∧
      (o.getTransactionPrunableHash cnFastHash blob).1.tx = o.tx ∧
      (o.tx.rctSignatures.type ≠ .null →
        (o.getTransactionPrunableHash cnFastHash blob).2 = some (cnFastHash (prunableBytes o.tx))) := by
  obtain ⟨hsound, hcomplete⟩ := ho.calculatePrunable hblob
  unfold getTransactionPrunableHash
  cases hcached : o.prunableHash with
  | some h => exact ⟨ho, rfl, fun _ => congrArg some (ho.prunableHash h hcached)⟩
  | none =>
    cases hcalculated : o.calculateTransactionPrunableHash cnFastHash blob with
    | none =>
      refine ⟨ho, rfl, fun hnull => ?_⟩
      rw [hcomplete hnull] at hcalculated
      cases hcalculated
    | some h =>
      have hh := hsound h hcalculated
      refine ⟨{ ho with prunableHash := fun h' hh' => ?_ }, rfl, fun _ => congrArg some hh⟩
      rw [← Option.some.inj hh', hh]

theorem getPrunedHash (ho : o.Coherent cnFastHash) :
    (o.call cnFastHash .prunedHash).1.Coherent cnFastHash ∧ (o.call cnFastHash .prunedHash).1.tx = o.tx ∧
      (o.call cnFastHash .prunedHash).2 = some (threePartHash cnFastHash o.tx) := by
  have hbase := (valid_rctSigBase _ _ _).mpr (ho.wellFormed.rctSignatures ho.version ho.vin).1
  have hversion : ¬ o.tx.version ≤ 1 := by rw [ho.version]; decide
  unfold call getPrunedTransactionHash
  dsimp only
  rw [if_neg hversion, if_pos hbase]
  refine ⟨{ ho with hash := fun h hh => ?_ }, rfl, rfl⟩
  exact (Option.some.inj hh).symm

theorem call (ho : o.Coherent cnFastHash) (c : HashCall) :
    (o.call cnFastHash c).1.Coherent cnFastHash ∧ (o.call cnFastHash c).1.tx = o.tx ∧
      Answers cnFastHash o.tx (o.call cnFastHash c).2 c := by
  cases c with
  | toBlob =>
    obtain ⟨ho', htx, -⟩ := ho.toBlob
    exact ⟨ho', htx, trivial⟩
  | calculateHash =>
    obtain ⟨ho', htx, -⟩ := ho.toBlob
    change (o.calculateTransactionHash cnFastHash).1.Coherent cnFastHash ∧ _
    rw [TxObject.call, ho.calculateHash]
    exact ⟨ho', htx, rfl⟩
  | transactionHash => exact ho.getHash
  | prunableHash withBlob =>
    apply ho.getPrunableHash
    cases withBlob with
    | false => exact Or.inl rfl
    | true => exact Or.inr rfl
  | prunedHash => exact ho.getPrunedHash

theorem after (ho : o.Coherent cnFastHash) (calls : List HashCall) :
    (o.after cnFastHash calls).Coherent cnFastHash ∧ (o.after cnFastHash calls).tx = o.tx := by
  induction calls generalizing o with
  | nil => exact ⟨ho, rfl⟩
  | cons c rest ih =>
    obtain ⟨ho', htx, -⟩ := ho.call c
    obtain ⟨hrest, hrestTx⟩ := ih ho'
    exact ⟨hrest, hrestTx.trans htx⟩

end TxObject.Coherent

theorem coherent_fresh {tx : Transaction} (hwf : tx.WellFormed) (hfull : tx.pruned = false)
    (hversion : tx.version = 2) (hvin : tx.vin ≠ []) (hsize : (transactionBase.write tx).length < 2 ^ 32) :
    (TxObject.fresh tx).Coherent cnFastHash :=
  ⟨hwf, hfull, hversion, hvin, hsize, by rintro _ ⟨⟩, by rintro _ ⟨⟩, Or.inl rfl⟩

theorem coherent_parse {tx : Transaction} {smul : Key → Key} {o : TxObject} (hwf : tx.WellFormed)
    (hversion : tx.version = 2) (hvin : tx.vin ≠ []) (hsize : (transactionBase.write tx).length < 2 ^ 32)
    (hparse : TxObject.parse smul ((transaction false).write tx) = some o) :
    o.Coherent cnFastHash ∧ o.tx.serialised = tx.serialised := by
  have hhead := transactionPrefix.read_write .accept tx.toTransactionPrefix (baseBytes tx ++ prunableBytes tx)
    ((valid_transactionPrefix _).mpr hwf.pre)
  have hbase := transactionBase.read_write .accept tx (prunableBytes tx) (write_eq_base_append hwf).1
  have hblob : transactionPrefix.write tx.toTransactionPrefix ++ (baseBytes tx ++ prunableBytes tx) =
      (transaction false).write tx := by
    rw [write_eq_parts hversion hvin, write_base_eq hversion hvin, List.append_assoc]
    rfl
  rw [hblob] at hhead
  rw [← write_eq_parts hversion hvin] at hbase
  unfold TxObject.parse at hparse
  rw [hhead, hbase, parse_write smul hwf] at hparse
  obtain ⟨tx', hexpand, ho⟩ := Option.bind_eq_some_iff.mp hparse
  obtain ⟨hser, hfull⟩ := serialised_expand hexpand
  rw [serialised_serialised hwf] at hser
  obtain ⟨hwf', hpre, -, hwrite, -⟩ := parts_eq_of_serialised hwf hversion hvin hser
  have hversion' : tx'.version = 2 := by rw [hpre, hversion]
  have hvin' : tx'.vin ≠ [] := by rwa [hpre]
  obtain rfl := Option.some.inj ho
  refine ⟨⟨hwf', hfull, hversion', hvin', by rwa [hwrite], by rintro _ ⟨⟩, by rintro _ ⟨⟩, Or.inr ?_⟩, hser⟩
  dsimp only
  rw [if_neg (by rw [hversion']; decide), if_neg hvin', hwrite, write_eq_parts hversion hvin, List.length_append,
    Nat.add_sub_cancel]
  exact UInt32.toNat_ofNat_of_lt' hsize

inductive ObjectOf (tx : Transaction) : TxObject → Prop
  | built : ObjectOf tx (TxObject.fresh tx)
  | parsed (smul : Key → Key) (o : TxObject) (h : TxObject.parse smul ((transaction false).write tx) = some o) :
    ObjectOf tx o

theorem threePartHash_congr {tx tx' : Transaction} (hpre : tx'.toTransactionPrefix = tx.toTransactionPrefix)
    (htype : tx'.rctSignatures.type = tx.rctSignatures.type) (hbase : baseBytes tx' = baseBytes tx)
    (hprunable : prunableBytes tx' = prunableBytes tx) : threePartHash cnFastHash tx' = threePartHash cnFastHash tx := by
  rw [threePartHash, hashPrefix, hpre, htype, hbase, hprunable]
  rfl

theorem ObjectOf.coherent {tx : Transaction} {o : TxObject} (h : ObjectOf tx o) (hwf : tx.WellFormed)
    (hfull : tx.pruned = false) (hversion : tx.version = 2) (hvin : tx.vin ≠ [])
    (hsize : (transactionBase.write tx).length < 2 ^ 32) :
    o.Coherent cnFastHash ∧ o.tx.serialised = tx.serialised := by
  cases h with
  | built => exact ⟨coherent_fresh cnFastHash hwf hfull hversion hvin hsize, rfl⟩
  | parsed smul _ h => exact coherent_parse cnFastHash hwf hversion hvin hsize h

theorem transaction_hashes_agree {tx : Transaction} (hwf : tx.WellFormed) (hfull : tx.pruned = false)
    (hversion : tx.version = 2) (hvin : tx.vin ≠ []) (hsize : (transactionBase.write tx).length < 2 ^ 32) :
    (∀ o, ObjectOf tx o → ∀ calls c, Answers cnFastHash tx ((o.after cnFastHash calls).call cnFastHash c).2 c) ∧
      ∀ tx', PrunedForm tx tx' →
        ∃ o, (TxObject.fresh tx').getPrunedTransactionHash cnFastHash (cnFastHash (prunableBytes tx)) =
            (o, some (threePartHash cnFastHash tx)) ∧
          (o.getTransactionHash cnFastHash).2 = some (threePartHash cnFastHash tx) := by
  constructor
  · intro o ho calls c
    obtain ⟨hcoherent, hser⟩ := ho.coherent cnFastHash hwf hfull hversion hvin hsize
    obtain ⟨hafter, htx⟩ := hcoherent.after calls
    obtain ⟨-, -, hanswer⟩ := hafter.call c
    rw [htx] at hanswer
    obtain ⟨-, hpre, htype, hwrite, hprunable⟩ := parts_eq_of_serialised hwf hversion hvin hser
    have hbase := baseBytes_congr hversion hvin hpre hwrite
    have hhash := threePartHash_congr cnFastHash hpre htype hbase hprunable
    cases c with
    | toBlob => trivial
    | calculateHash => exact hanswer.trans (congrArg some hhash)
    | transactionHash => exact hanswer.trans (congrArg some hhash)
    | prunableHash withBlob =>
      intro hnull
      rw [← hprunable]
      exact hanswer (by rwa [htype])
    | prunedHash => exact hanswer.trans (congrArg some hhash)
  · intro tx' hpruned
    obtain ⟨-, hpre, htype, hwrite, hbaseWf⟩ := hpruned.spec hwf hversion hvin
    have hbase := baseBytes_congr hversion hvin hpre hwrite
    have hvalid := (valid_rctSigBase _ _ _).mpr hbaseWf
    refine ⟨{ TxObject.fresh tx' with hash := some (threePartHash cnFastHash tx) }, ?_, rfl⟩
    unfold TxObject.getPrunedTransactionHash TxObject.fresh
    dsimp only
    rw [hpre, hversion, if_neg (by decide), if_pos hvalid, hashPrefix, hpre, hbase, htype]
    rfl

theorem transaction_hashes_agree_sample :
    ((TxObject.fresh sampleTx).call (fun _ => nullHash) .transactionHash).2 =
      some (threePartHash (fun _ => nullHash) sampleTx) := by
  have hwf : sampleTx.WellFormed := (valid_transaction sampleTx).mp (by decide)
  exact (transaction_hashes_agree (fun _ => nullHash) hwf rfl rfl (by decide) (by decide +kernel)).1 _
    ObjectOf.built [] .transactionHash

def unsignedTx (vin : List Txin) (extra : Bytes) : Transaction := ⟨⟨2, 0, vin, [], extra⟩, [], default, false⟩

theorem wellFormed_unsignedTx {vin : List Txin} {extra : Bytes} (hvin : vin.length < 2 ^ 64)
    (hsized : ∀ i ∈ vin, i.Sized) (hextra : extra.length < 2 ^ 64) : (unsignedTx vin extra).WellFormed where
  pre := ⟨Or.inr rfl, hvin, Nat.two_pow_pos 64, hextra, hsized, List.forall_mem_nil _⟩
  signatures h := by
    change (2 : UInt64) = 1 at h
    exact absurd h (by decide)
  rctSignatures _ _ := ⟨fun h => absurd rfl h, fun h => absurd rfl h⟩

theorem write_unsignedPrefix (extra : Bytes) :
    transactionPrefix.write (unsignedTx [.gen 0] extra).toTransactionPrefix =
      [2, 0, 1, 0xff, 0, 0] ++ (writeVarint extra.length ++ extra) := by
  rw [← write_byteString]
  rfl

theorem write_unsignedBase (extra : Bytes) :
    transactionBase.write (unsignedTx [.gen 0] extra) =
      transactionPrefix.write (unsignedTx [.gen 0] extra).toTransactionPrefix ++ [0] :=
  write_base_eq rfl (List.cons_ne_nil _ _)

theorem length_writeVarint_long : (writeVarint 4294967284).length = 5 := by
  rw [writeVarint_large (by decide), writeVarint_large (by decide), writeVarint_large (by decide),
    writeVarint_large (by decide), writeVarint_small (by decide)]
  rfl

theorem calculateTransactionHash_eq_none {o : TxObject} (hfull : o.tx.pruned = false) (hversion : o.tx.version ≠ 1)
    (hsizes : ¬ o.toBlob.1.prefixSize ≤ o.toBlob.1.unprunableSize) :
    (o.calculateTransactionHash cnFastHash).2 = none := by
  have htx : o.toBlob.1.tx = o.tx := rfl
  unfold TxObject.calculateTransactionHash
  rw [hfull, if_neg Bool.false_ne_true]
  generalize o.toBlob = r at hsizes htx ⊢
  obtain ⟨o', blob⟩ := r
  dsimp only at hsizes htx ⊢
  rw [if_neg (by rwa [htx]), if_neg fun h => hsizes h.1]

theorem getTransactionHash_long {extra : Bytes} (hextra : extra.length = 4294967284) :
    ((TxObject.fresh (unsignedTx [.gen 0] extra)).getTransactionHash cnFastHash).2 = none := by
  have hlen : (transactionPrefix.write (unsignedTx [.gen 0] extra).toTransactionPrefix).length = 4294967295 := by
    rw [write_unsignedPrefix, List.length_append, List.length_append, hextra, length_writeVarint_long]
    rfl
  have hhead : (TxObject.fresh (unsignedTx [.gen 0] extra)).toBlob.1.prefixSize = 4294967295 :=
    congrArg UInt32.ofNat hlen
  have hunprunable : (TxObject.fresh (unsignedTx [.gen 0] extra)).toBlob.1.unprunableSize = 0 := by
    change UInt32.ofNat (transactionBase.write (unsignedTx [.gen 0] extra)).length = 0
    rw [write_unsignedBase, List.length_append, hlen]
    rfl
  have hnone : ((TxObject.fresh (unsignedTx [.gen 0] extra)).calculateTransactionHash cnFastHash).2 = none := by
    apply calculateTransactionHash_eq_none _ rfl
    · exact (by decide : (2 : UInt64) ≠ 1)
    · rw [hhead, hunprunable]
      decide
  unfold TxObject.getTransactionHash
  generalize (TxObject.fresh (unsignedTx [.gen 0] extra)).calculateTransactionHash cnFastHash = r at hnone
  obtain ⟨o, answer⟩ := r
  obtain rfl : answer = none := hnone
  rfl

theorem hash_without_sizes :
    (∃ tx : Transaction, tx.WellFormed ∧ tx.pruned = false ∧ tx.version = 2 ∧ tx.vin = [] ∧
      ((TxObject.fresh tx).getTransactionHash fun _ => nullHash).2 = none ∧
      ((TxObject.fresh { tx with pruned := true }).getPrunedTransactionHash (fun _ => nullHash) nullHash).2 =
        some (threePartHash (fun _ => nullHash) tx)) ∧
    ∃ tx : Transaction, tx.WellFormed ∧ tx.pruned = false ∧ tx.version = 2 ∧ tx.vin ≠ [] ∧
      ((TxObject.fresh tx).getTransactionHash fun _ => nullHash).2 = none ∧
      ((TxObject.fresh { tx with pruned := true }).getPrunedTransactionHash (fun _ => nullHash) nullHash).2 =
        some (threePartHash (fun _ => nullHash) tx) := by
  constructor
  · exact ⟨unsignedTx [] [], wellFormed_unsignedTx (by decide) (List.forall_mem_nil _) (by decide), rfl, rfl, rfl, rfl,
      rfl⟩
  · have hextra : (List.replicate 4294967284 (0 : UInt8)).length = 4294967284 := List.length_replicate
    generalize List.replicate 4294967284 (0 : UInt8) = extra at hextra
    exact ⟨unsignedTx [.gen 0] extra, wellFormed_unsignedTx (by decide) (List.forall_mem_singleton.mpr trivial)
      (by rw [hextra]; decide), rfl, rfl, List.cons_ne_nil _ _, getTransactionHash_long _ hextra, rfl⟩

end Velkavo.Cryptonote
