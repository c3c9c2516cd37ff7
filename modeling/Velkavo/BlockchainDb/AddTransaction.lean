import Velkavo.BlockchainDb.Tables
import Velkavo.Cryptonote.BlobRoundTrip

/-! Taking the transactions of a block out of the tables undoes what putting them in did. -/

namespace Velkavo.BlockchainDb

open Cryptonote ByteCodec Effects

variable {k : DbFunctions}

theorem orThrow_eq_ok {α : Type} {e : DbError} {x : Option α} {a : α} : orThrow e x = .ok a ↔ x = some a := by
  cases x with
  | none => simp [orThrow]
  | some b => simp [orThrow]

section

variable {tx : Transaction} {blob : Bytes}

inductive Parsed (k : DbFunctions) (tx : Transaction) (blob : Bytes) : Prop
  | whole (pruned : tx.pruned = false) (blob_eq : txToBlob tx = some blob)
      (parse : parseAndValidateTxFromBlob k.scalarmultInvEight blob = some tx)
  | pruned (pruned : tx.pruned = true) (blob_eq : transactionBase.write tx = blob)
      (parse : parseAndValidateTxBaseFromBlob k.scalarmultInvEight blob = some tx)

structure HasBase (k : DbFunctions) (tx : Transaction) (blob : Bytes) : Prop where
  version : tx.version = 1 ∨ tx.version = 2
  eq_append : ∃ rest, blob = transactionBase.write tx ++ rest
  parse : (∀ out ∈ tx.vout, (getOutputPublicKey out).isSome) →
    ∃ base, parseAndValidateTxBaseFromBlob k.scalarmultInvEight (transactionBase.write tx) = some base ∧
      base.toTransactionPrefix = tx.toTransactionPrefix

theorem hasBase_write (h : tx.WellFormed) : HasBase k tx ((transaction false).write tx) :=
  ⟨h.pre.version_eq, (write_eq_base_append h).2, parse_base_of_keys k.scalarmultInvEight h⟩

theorem wellFormed_of_txToBlob (hpruned : tx.pruned = false) (h : txToBlob tx = some blob) :
    tx.WellFormed ∧ blob = (transaction false).write tx := by
  rw [txToBlob, hpruned] at h
  split_ifs at h with hvalid
  exact ⟨(valid_transaction tx).mp hvalid, (Option.some.inj h).symm⟩

theorem version_of_parse_base (h : parseAndValidateTxBaseFromBlob k.scalarmultInvEight blob = some tx) :
    tx.version = 1 ∨ tx.version = 2 := by
  obtain ⟨⟨read, rest⟩, hread, hexpand⟩ := Option.bind_eq_some_iff.mp h
  have hvalid := transactionBase.valid_of_read hread
  simp only [transactionBase, Codec.view, Codec.andThen, Codec.dep, Bool.and_eq_true] at hvalid
  have hversion := ((valid_transactionPrefix _).mp hvalid.1).version_eq
  have hserialised := (serialised_expand hexpand).1
  have hfields : tx.serialised.version = read.serialised.version := congrArg (fun t => t.version) hserialised
  exact hfields ▸ hversion

theorem Parsed.hasBase (h : Parsed k tx blob) : HasBase k tx blob := by
  cases h with
  | whole hpruned hblob hparse =>
    obtain ⟨hwf, rfl⟩ := wellFormed_of_txToBlob hpruned hblob
    exact hasBase_write hwf
  | pruned hpruned hblob hparse =>
    exact ⟨version_of_parse_base hparse, ⟨[], by rw [← hblob, List.append_nil]⟩, fun _ => ⟨tx, hblob ▸ hparse, rfl⟩⟩

theorem unprunableLength_eq (tx : Transaction) :
    Db.unprunableLength tx = (transactionBase.write tx).length % 2 ^ 32 := by
  rw [Db.unprunableLength]
  split_ifs with hzero
  · rfl
  · rw [unprunableSize] at hzero ⊢
    split_ifs at hzero ⊢ with hv hvin
    · have hw : transactionBase.write tx = transactionPrefix.write tx.toTransactionPrefix := by
        simp [transactionBase, Codec.view, Codec.andThen, Codec.dep, hv, Codec.absent]
      rw [hw]
      exact UInt32.toNat_ofNat'
    · exact absurd rfl hzero
    · exact UInt32.toNat_ofNat'

theorem HasBase.take_unprunable (h : HasBase k tx blob)
    (hsize : (blob.drop (Db.unprunableLength tx)).length ≤ maxDataSize) :
    blob.take (Db.unprunableLength tx) = transactionBase.write tx := by
  obtain ⟨rest, hblob⟩ := h.eq_append
  have hlength := unprunableLength_eq tx
  have hmod := Nat.mod_add_div (transactionBase.write tx).length (2 ^ 32)
  rw [hblob, List.length_drop, List.length_append, maxDataSize] at hsize
  have hlt : (transactionBase.write tx).length < 2 ^ 32 := by omega
  rw [hlength, Nat.mod_eq_of_lt hlt, hblob, List.take_left]

end

section

def keyImage? : Txin → Option KeyImage
  | .toKey txin => some txin.kImage
  | _ => none

def keyImages (vin : List Txin) : List KeyImage := vin.filterMap keyImage?

variable {vin : List Txin} {db db' : Db}

structure KeysAdded (keys : ByHash Unit) (images : List KeyImage) (keys' : ByHash Unit) : Prop where
  find? : ∀ image, keys'.find? image = if image ∈ images then some () else keys.find? image
  fresh : ∀ image ∈ images, keys.find? image = none
  nodup : images.Nodup

theorem keysAdded_nil (keys : ByHash Unit) : KeysAdded keys [] keys :=
  ⟨fun _ => rfl, fun _ himage => absurd himage List.not_mem_nil, List.nodup_nil⟩

theorem keysAdded_singleton {keys : ByHash Unit} {image : KeyImage} (h : keys.find? image = none) :
    KeysAdded keys [image] (keys.assign image ()) := by
  refine ⟨fun image' => ?_, fun image' himage => List.mem_singleton.mp himage ▸ h, List.nodup_singleton _⟩
  rw [OrderedMap.find?_assign]
  exact if_congr (hashKey_injective.eq_iff.trans List.mem_singleton.symm) rfl rfl

theorem KeysAdded.trans {keys keys₁ keys' : ByHash Unit} {images images' : List KeyImage} (h : KeysAdded keys images keys₁)
    (h' : KeysAdded keys₁ images' keys') : KeysAdded keys (images ++ images') keys' := by
  -- An image of the second list is not found after the first one is put in.
  have hnew : ∀ image ∈ images', image ∉ images ∧ keys.find? image = none := by
    intro image himage
    have hnone := h'.fresh image himage
    rw [h.find?] at hnone
    split_ifs at hnone with hmem
    exact ⟨hmem, hnone⟩
  refine ⟨fun image => ?_, fun image himage => ?_, List.nodup_append.mpr ⟨h.nodup, h'.nodup, ?_⟩⟩
  · rw [h'.find?, h.find?]
    by_cases himage : image ∈ images'
    · rw [if_pos himage, if_pos (List.mem_append_right _ himage)]
    · rw [if_neg himage]
      exact if_congr (by rw [List.mem_append, or_iff_left himage]) rfl rfl
  · rcases List.mem_append.mp himage with himage | himage
    · exact h.fresh image himage
    · exact (hnew image himage).2
  · rintro image himage _ himage' rfl
    exact (hnew image himage').1 himage

structure InputsAdded (db : Db) (vin : List Txin) (db' : Db) : Prop where
  eq_with : db' = { db with spentKeys := db'.spentKeys }
  keys : KeysAdded db.spentKeys (keyImages vin) db'.spentKeys

theorem inputsAdded_of_ok (h : vin.foldlM Db.addInput db = .ok db') : InputsAdded db vin db' := by
  induction vin generalizing db with
  | nil =>
    cases h
    exact ⟨rfl, keysAdded_nil _⟩
  | cons i vin ih =>
    rw [List.foldlM_cons] at h
    obtain ⟨db₁, hi, hrest⟩ := bind_eq_ok.mp h
    obtain ⟨heq, hkeys⟩ := ih hrest
    cases i with
    | gen height =>
      cases hi
      exact ⟨heq, hkeys⟩
    | toScript prev prevout sigset => cases hi
    | toScripthash prev prevout script sigset => cases hi
    | toKey txin =>
      obtain ⟨hnone, hdb₁⟩ := checkThrow_bind.mp (hi : db.addSpentKey txin.kImage = .ok db₁)
      cases hdb₁
      exact ⟨heq, (keysAdded_singleton hnone).trans hkeys⟩

theorem find?_foldl_removeInput (vin : List Txin) (db : Db) (image : KeyImage) :
    (vin.foldl Db.removeInput db).spentKeys.find? image =
      if image ∈ keyImages vin then none else db.spentKeys.find? image := by
  induction vin generalizing db with
  | nil => rfl
  | cons i vin ih =>
    rw [List.foldl_cons, ih]
    cases i with
    | toKey txin =>
      change (if image ∈ keyImages vin then none else (db.spentKeys.erase txin.kImage).find? image) =
        if image ∈ txin.kImage :: keyImages vin then _ else _
      rw [OrderedMap.find?_erase]
      by_cases himage : image = txin.kImage
      · rw [if_pos (congrArg hashKey himage), if_pos (List.mem_cons.mpr (.inl himage))]
        exact ite_self _
      · rw [if_neg fun heq => himage (hashKey_injective heq)]
        exact if_congr (by rw [List.mem_cons, or_iff_right himage]) rfl rfl
    | gen height => rfl
    | toScript prev prevout sigset => rfl
    | toScripthash prev prevout script sigset => rfl

theorem foldl_removeInput_eq (vin : List Txin) (db : Db) :
    vin.foldl Db.removeInput db = { db with spentKeys := (vin.foldl Db.removeInput db).spentKeys } := by
  induction vin generalizing db with
  | nil => rfl
  | cons i vin ih =>
    rw [List.foldl_cons, ih]
    cases i <;> rfl

theorem InputsAdded.remove (h : InputsAdded db vin db') {db'' : Db} (hkeys : db''.spentKeys = db'.spentKeys) :
    vin.foldl Db.removeInput db'' = { db'' with spentKeys := db.spentKeys } := by
  have hrestored : (vin.foldl Db.removeInput db'').spentKeys = db.spentKeys := by
    refine OrderedMap.ext_find? hashKey_injective fun image => ?_
    rw [find?_foldl_removeInput, hkeys, h.keys.find?]
    split_ifs with himage
    · exact (h.keys.fresh image himage).symm
    · rfl
  rw [foldl_removeInput_eq, hrestored]

end

section

variable {height i : ℕ} {txHash : Hash} {tx : Transaction} {outs outs' : OutputTables}

def storedAmount (tx : Transaction) (out : TxOut) : UInt64 :=
  if tx.vin.any isGen && tx.version = 2 then 0 else out.amount

theorem storedOutput_eq_ok {out : TxOut} {stored : TxOut × Option Rct.Key} (h : storedOutput k tx i out = .ok stored) :
    stored.1 = { out with amount := storedAmount tx out } := by
  rw [storedOutput] at h
  rw [storedAmount]
  split_ifs at h ⊢ with hgen hversion
  · cases h
    rfl
  · obtain ⟨key, -, rfl⟩ : ∃ key, orThrow .undefined tx.rctSignatures.outPk[i]? = .ok key ∧
        (out, some key.mask) = stored := by
      cases hkey : orThrow DbError.undefined tx.rctSignatures.outPk[i]? with
      | error e => rw [hkey] at h; cases h
      | ok key => rw [hkey] at h; exact ⟨key, rfl, Except.ok.inj h⟩
    rfl
  · cases h
    rfl

structure OutputAdded (outs : OutputTables) (amount : UInt64) (index : ℕ) (outs' : OutputTables) : Prop where
  newId : outs.outputTxs.find? outs.numOutputs = none
  newIndex : outs.outputAmounts.find? (amount.toNat, index) = none
  eq_assign : ∃ owner row, row.outputId = outs.numOutputs ∧ outs' =
    ⟨outs.outputTxs.assign outs.numOutputs owner, outs.outputAmounts.assign (amount.toNat, index) row⟩

theorem appendDup_eq_some {amount : UInt64} {index : ℕ} {row : OutKey} {table : WithDups OutKey}
    (h : outs.appendDup amount index row = some table) :
    table = outs.outputAmounts.assign (amount.toNat, index) row ∧
      outs.outputAmounts.find? (amount.toNat, index) = none := by
  rw [OutputTables.appendDup] at h
  split_ifs at h with hlast
  refine ⟨(Option.some.inj h).symm, (OrderedMap.find?_eq_none_iff _ _).mpr fun x hx hkey => ?_⟩
  have hrow : x.1 = (amount.toNat, index) := dupKey_injective hkey
  have hlt := hlast x hx (by rw [hrow])
  rw [hrow] at hlt
  exact lt_irrefl _ hlt

theorem outputAdded_of_ok {out : TxOut} {localIndex index : ℕ} {unlockTime : UInt64} {commitment : Option Rct.Key}
    (h : outs.addOutput height txHash out localIndex unlockTime commitment = .ok (index, outs')) :
    (getOutputPublicKey out).isSome ∧ OutputAdded outs out.amount index outs' := by
  obtain ⟨pubkey, hpubkey, h⟩ := bind_eq_ok.mp h
  obtain ⟨-, h⟩ := checkThrow_bind.mp h
  obtain ⟨outputTxs, htxs, h⟩ := bind_eq_ok.mp h
  obtain ⟨outputAmounts, hamounts, h⟩ := bind_eq_ok.mp h
  cases h
  obtain ⟨rfl, hnewId⟩ := OrderedMap.append_eq_some (orThrow_eq_ok.mp htxs)
  obtain ⟨rfl, hnewIndex⟩ := appendDup_eq_some (orThrow_eq_ok.mp hamounts)
  exact ⟨Option.isSome_iff_exists.mpr ⟨pubkey, orThrow_eq_ok.mp hpubkey⟩, OrderedMap.find?_eq_none_of_lt hnewId,
    hnewIndex, _, _, rfl, rfl⟩

theorem OutputAdded.remove {amount : UInt64} {index : ℕ} (h : OutputAdded outs amount index outs') :
    outs'.removeOutput amount index = .ok outs := by
  obtain ⟨hnewId, hnewIndex, owner, row, hrow, rfl⟩ := h
  refine bind_eq_ok.mpr ⟨row, orThrow_eq_ok.mpr ?_, bind_eq_ok.mpr ⟨owner, orThrow_eq_ok.mpr ?_, ?_⟩⟩
  · rw [OrderedMap.find?_assign, if_pos rfl]
  · rw [hrow, OrderedMap.find?_assign, if_pos rfl]
  · rw [hrow, OrderedMap.erase_assign Function.injective_id hnewId, OrderedMap.erase_assign dupKey_injective hnewIndex]

theorem addOutputs_cons {out : TxOut} {rest : List TxOut} {indices : List ℕ}
    (h : addOutputs k height txHash tx i (out :: rest) outs = .ok (indices, outs')) :
    ∃ index outs₁ indices₁, (getOutputPublicKey out).isSome ∧ OutputAdded outs (storedAmount tx out) index outs₁ ∧
      addOutputs k height txHash tx (i + 1) rest outs₁ = .ok (indices₁, outs') ∧ indices = index :: indices₁ := by
  obtain ⟨stored, hstored, h⟩ := bind_eq_ok.mp h
  obtain ⟨⟨index, outs₁⟩, hout, h⟩ := bind_eq_ok.mp h
  obtain ⟨⟨indices₁, outs₂⟩, hrest, h⟩ := bind_eq_ok.mp h
  cases h
  obtain ⟨hkey, hadded⟩ := outputAdded_of_ok hout
  rw [storedOutput_eq_ok hstored] at hkey hadded
  exact ⟨index, outs₁, indices₁, hkey, hadded, hrest, rfl⟩

theorem isSome_of_addOutputs {vout : List TxOut} {indices : List ℕ}
    (h : addOutputs k height txHash tx i vout outs = .ok (indices, outs')) :
    indices.length = vout.length ∧ ∀ out ∈ vout, (getOutputPublicKey out).isSome := by
  induction vout generalizing i outs indices with
  | nil =>
    cases h
    exact ⟨rfl, List.forall_mem_nil _⟩
  | cons out rest ih =>
    obtain ⟨index, outs₁, indices₁, hkey, -, hrest, rfl⟩ := addOutputs_cons h
    obtain ⟨hlength, hkeys⟩ := ih hrest
    exact ⟨congrArg (· + 1) hlength, List.forall_mem_cons.mpr ⟨hkey, hkeys⟩⟩

theorem removeOutputs_addOutputs {vout : List TxOut} {indices : List ℕ}
    (h : addOutputs k height txHash tx i vout outs = .ok (indices, outs'))
    (hmatch : ∀ out ∈ vout, removedAmount tx out = storedAmount tx out) :
    outs'.removeOutputs (removedAmount tx) vout indices = .ok outs := by
  induction vout generalizing i outs indices with
  | nil =>
    cases h
    rfl
  | cons out rest ih =>
    obtain ⟨index, outs₁, indices₁, -, hadded, hrest, rfl⟩ := addOutputs_cons h
    obtain ⟨hout, hmatch⟩ := List.forall_mem_cons.mp hmatch
    refine bind_eq_ok.mpr ⟨outs₁, ih hrest hmatch, ?_⟩
    rw [hout]
    exact hadded.remove

section

variable {amount a : UInt64} {index : ℕ}

theorem amountCount_assign {row : OutKey} {outputTxs : ById OutTx}
    (h : outs.outputAmounts.find? (amount.toNat, index) = none) :
    OutputTables.amountCount ⟨outputTxs, outs.outputAmounts.assign (amount.toNat, index) row⟩ a =
      outs.amountCount a + if amount = a then 1 else 0 := by
  rw [OutputTables.amountCount, ((OrderedMap.perm_assign h row).filter _).length_eq, List.filter_cons,
    OutputTables.amountCount]
  simp only [decide_eq_true_eq, UInt64.toNat_inj]
  split_ifs <;> rfl

theorem OutputAdded.amountCount (h : OutputAdded outs amount index outs') :
    outs'.amountCount a = outs.amountCount a + if amount = a then 1 else 0 := by
  obtain ⟨-, hnewIndex, owner, row, -, rfl⟩ := h
  exact amountCount_assign hnewIndex

theorem amountCount_removeOutput (h : outs.removeOutput amount index = .ok outs') :
    outs.amountCount a = outs'.amountCount a + if amount = a then 1 else 0 := by
  obtain ⟨row, hrow, h⟩ := bind_eq_ok.mp h
  obtain ⟨owner, -, h⟩ := bind_eq_ok.mp h
  cases h
  have hnone : (outs.outputAmounts.erase (amount.toNat, index)).find? (amount.toNat, index) = none := by
    rw [OrderedMap.find?_erase, if_pos rfl]
  have hcount := @amountCount_assign ⟨outs.outputTxs, outs.outputAmounts.erase (amount.toNat, index)⟩ amount a index
    row outs.outputTxs hnone
  rw [OrderedMap.assign_erase dupKey_injective (orThrow_eq_ok.mp hrow)] at hcount
  exact hcount

theorem amountCount_addOutputs {vout : List TxOut} {indices : List ℕ}
    (h : addOutputs k height txHash tx i vout outs = .ok (indices, outs')) :
    outs'.amountCount a = outs.amountCount a + vout.countP fun out => storedAmount tx out = a := by
  induction vout generalizing i outs indices with
  | nil =>
    cases h
    rfl
  | cons out rest ih =>
    obtain ⟨index, outs₁, indices₁, -, hadded, hrest, rfl⟩ := addOutputs_cons h
    rw [ih hrest, hadded.amountCount, List.countP_cons]
    simp only [decide_eq_true_eq]
    omega

theorem amountCount_removeOutputs {removed : TxOut → UInt64} {vout : List TxOut} {indices : List ℕ}
    (h : outs.removeOutputs removed vout indices = .ok outs') :
    outs.amountCount a = outs'.amountCount a + vout.countP fun out => removed out = a := by
  induction vout generalizing indices outs' with
  | nil =>
    cases h
    rfl
  | cons out rest ih =>
    cases indices with
    | nil => cases h
    | cons index indices =>
      obtain ⟨outs₁, hrest, hout⟩ := bind_eq_ok.mp h
      rw [ih hrest, amountCount_removeOutput hout, List.countP_cons]
      simp only [decide_eq_true_eq]
      omega

end

def OutputsMatch (tx : Transaction) : Prop :=
  tx.version = 2 → tx.vin.any isGen = true → isCoinbase tx = true ∨ ∀ out ∈ tx.vout, out.amount = 0

instance (tx : Transaction) : Decidable (OutputsMatch tx) := by unfold OutputsMatch; infer_instance

theorem any_isGen_of_isCoinbase (h : isCoinbase tx = true) : tx.vin.any isGen = true := by
  rw [isCoinbase] at h
  split at h
  · rename_i height hvin
    rw [hvin]
    rfl
  · cases h

theorem storedAmount_of_removedAmount {out : TxOut} (hversion : tx.version = 1 ∨ tx.version = 2)
    (h : removedAmount tx out = 0) : storedAmount tx out = 0 := by
  rw [storedAmount]
  split_ifs with hgen
  · rfl
  · have hcoinbase : ¬(tx.version ≥ 2 && isCoinbase tx) = true := by
      intro hc
      simp only [Bool.and_eq_true, decide_eq_true_eq] at hc hgen
      have hv : tx.version = 2 := hversion.resolve_left fun hv => by simp [hv] at hc
      exact hgen ⟨any_isGen_of_isCoinbase hc.2, hv⟩
    rwa [removedAmount, if_neg hcoinbase] at h

theorem removedAmount_eq_iff (hversion : tx.version = 1 ∨ tx.version = 2) :
    (∀ out ∈ tx.vout, removedAmount tx out = storedAmount tx out) ↔ OutputsMatch tx := by
  constructor
  · intro h hv hgen
    rw [or_iff_not_imp_left]
    intro hcoinbase out hout
    have heq := h out hout
    rwa [removedAmount, if_neg (by simp [hcoinbase]), storedAmount, if_pos (by simp [hv, hgen])] at heq
  · intro h out hout
    rcases hversion with hv | hv
    · simp [removedAmount, storedAmount, hv]
    · cases hgen : tx.vin.any isGen with
      | false =>
        have hcoinbase : ¬isCoinbase tx = true := fun hc => by simp [any_isGen_of_isCoinbase hc] at hgen
        simp [removedAmount, storedAmount, hgen, hcoinbase]
      | true =>
        rcases h hv hgen with hcoinbase | hzero
        · simp [removedAmount, storedAmount, hv, hgen, hcoinbase]
        · simp [removedAmount, storedAmount, hv, hgen, hzero out hout]

def storedZeros (tx : Transaction) : ℕ := tx.vout.countP fun out => storedAmount tx out = 0

def removedZeros (tx : Transaction) : ℕ := tx.vout.countP fun out => removedAmount tx out = 0

theorem removedZeros_le (hversion : tx.version = 1 ∨ tx.version = 2) : removedZeros tx ≤ storedZeros tx := by
  refine List.countP_mono_left fun out _ h => ?_
  simp only [decide_eq_true_eq] at h ⊢
  exact storedAmount_of_removedAmount hversion h

theorem outputsMatch_of_zeros (h : removedZeros tx = storedZeros tx) : OutputsMatch tx := by
  intro hv hgen
  rw [or_iff_not_imp_left]
  intro hcoinbase out hout
  have hremoved : ∀ out, removedAmount tx out = out.amount := fun out => by
    rw [removedAmount, if_neg (by simp [hcoinbase])]
  have hstored : ∀ out, storedAmount tx out = 0 := fun out => by rw [storedAmount, if_pos (by simp [hv, hgen])]
  simp only [removedZeros, storedZeros, hremoved, hstored, decide_true, List.countP_true] at h
  simpa using List.countP_eq_length.mp h out hout

end

section

variable {tx : Transaction} {blob : Bytes} {txHash : Hash} {indices : List ℕ} {db db' : Db}

def Db.TipBelow (db : Db) : Prop := ∀ x ∈ db.txsPrunableTip.entries, x.1.1 < db.getTxCount

def Db.withRows (db : Db) (tx : Transaction) (blob : Bytes) (txHash : Hash) (hashes : ById Hash) (indices : List ℕ)
    (outs : OutputTables) : Db :=
  { db with
    txIndices := db.txIndices.assign txHash ⟨db.getTxCount, tx.unlockTime, db.height⟩
    txsPruned := db.txsPruned.assign db.getTxCount (blob.take (Db.unprunableLength tx))
    txsPrunable := db.txsPrunable.assign db.getTxCount (blob.drop (Db.unprunableLength tx))
    txsPrunableTip := db.putTip db.getTxCount
    txsPrunableHash := hashes
    outs := outs
    txOutputs := db.txOutputs.assign db.getTxCount indices }

structure TransactionAdded (k : DbFunctions) (db : Db) (tx : Transaction) (blob : Bytes) (txHash : Hash)
    (indices : List ℕ) (db' : Db) : Prop where
  inputs : InputsAdded db tx.vin { db with spentKeys := db'.spentKeys }
  newHash : db.txIndices.find? txHash = none
  prunable_le : (blob.drop (Db.unprunableLength tx)).length ≤ maxDataSize
  newPruned : db.txsPruned.find? db.getTxCount = none
  newPrunable : db.txsPrunable.find? db.getTxCount = none
  prunableHash : db.putPrunableHash tx db.getTxCount (k.getTransactionPrunableHash tx blob) = .ok db'.txsPrunableHash
  outputs : addOutputs k db.height txHash tx 0 tx.vout db.outs = .ok (indices, db'.outs)
  newOutputs : db.txOutputs.find? db.getTxCount = none
  eq_with : db' = { db.withRows tx blob txHash db'.txsPrunableHash indices db'.outs with spentKeys := db'.spentKeys }

theorem putBlob_eq_ok {table table' : ById Bytes} {id : ℕ} (h : Db.putBlob table id blob = .ok table') :
    blob.length ≤ maxDataSize ∧ table' = table.assign id blob ∧ ∀ x ∈ table.entries, x.1 < id := by
  obtain ⟨hsize, h⟩ := checkThrow_bind.mp h
  exact ⟨hsize, OrderedMap.append_eq_some (orThrow_eq_ok.mp h)⟩

theorem transactionAdded_of_ok (h : db.addTransaction k tx blob txHash = .ok db') :
    ∃ indices, TransactionAdded k db tx blob txHash indices db' := by
  obtain ⟨db₁, hinputs, h⟩ := bind_eq_ok.mp h
  obtain ⟨db₂, hdata, h⟩ := bind_eq_ok.mp h
  obtain ⟨⟨indices, outs⟩, houtputs, h⟩ := bind_eq_ok.mp h
  obtain ⟨-, h⟩ := checkThrow_bind.mp h
  obtain ⟨txOutputs, htxOutputs, h⟩ := bind_eq_ok.mp h
  obtain ⟨hhash, hdata⟩ := checkThrow_bind.mp hdata
  obtain ⟨-, hdata⟩ := checkThrow_bind.mp hdata
  obtain ⟨pruned, hpruned, hdata⟩ := bind_eq_ok.mp hdata
  obtain ⟨prunable, hprunable, hdata⟩ := bind_eq_ok.mp hdata
  obtain ⟨hashes, hhashes, hdata⟩ := bind_eq_ok.mp hdata
  have hadded := inputsAdded_of_ok hinputs
  obtain ⟨-, rfl, hnewPruned⟩ := putBlob_eq_ok hpruned
  obtain ⟨hsize, rfl, hnewPrunable⟩ := putBlob_eq_ok hprunable
  cases hdata
  cases h
  obtain ⟨rfl, hnewOutputs⟩ := OrderedMap.append_eq_some (orThrow_eq_ok.mp htxOutputs)
  have heq := hadded.eq_with
  generalize db₁.spentKeys = keys at heq
  subst heq
  exact ⟨indices, hadded, hhash, hsize, OrderedMap.find?_eq_none_of_lt hnewPruned,
    OrderedMap.find?_eq_none_of_lt hnewPrunable, hhashes, houtputs, OrderedMap.find?_eq_none_of_lt hnewOutputs, rfl⟩

theorem removeTip_putTip (htip : db.TipBelow) {s : Db} (hs : s.txsPrunableTip = db.putTip db.getTxCount) :
    s.removeTip db.getTxCount = db.txsPrunableTip := by
  rw [Db.removeTip, hs, Db.putTip]
  split_ifs with hseed
  · have hnone : db.txsPrunableTip.entries.find? (fun x => x.1.1 = db.getTxCount) = none := by
      simpa using fun id height u hmem => (htip _ hmem).ne
    rw [hnone]
  · have hnew : db.txsPrunableTip.find? (db.getTxCount, db.height) = none := by
      refine (OrderedMap.find?_eq_none_iff _ _).mpr fun x hx hkey => ?_
      have hid : x.1.1 = db.getTxCount := congrArg Prod.fst (dupKey_injective hkey)
      exact (htip x hx).ne hid
    have hperm := OrderedMap.perm_assign hnew ()
    have hmem := hperm.mem_iff.mpr List.mem_cons_self
    obtain ⟨x, hfind⟩ := Option.isSome_iff_exists.mp
      (List.find?_isSome.mpr ⟨_, hmem, decide_eq_true (rfl : db.getTxCount = db.getTxCount)⟩ :
        ((db.txsPrunableTip.assign (db.getTxCount, db.height) ()).entries.find?
          fun x => x.1.1 = db.getTxCount).isSome)
    have hx : x.1 = (db.getTxCount, db.height) := by
      rcases List.mem_cons.mp (hperm.mem_iff.mp (List.mem_of_find?_eq_some hfind)) with rfl | hold
      · rfl
      · exact absurd (by simpa using List.find?_some hfind) (htip x hold).ne
    rw [hfind]
    change (db.txsPrunableTip.assign (db.getTxCount, db.height) ()).erase x.1 = _
    rw [hx, OrderedMap.erase_assign dupKey_injective hnew]

theorem removePrunableHash_put {hash : Hash} {hashes : ById Hash} {s : Db} {base : Transaction}
    (h : db.putPrunableHash tx db.getTxCount hash = .ok hashes) (hs : s.txsPrunableHash = hashes)
    (hversion : base.version = tx.version) : s.removePrunableHash base db.getTxCount = .ok db.txsPrunableHash := by
  rw [Db.putPrunableHash] at h
  rw [Db.removePrunableHash, hs, hversion]
  split_ifs at h ⊢ with hv
  · obtain ⟨rfl, hnew⟩ := OrderedMap.append_eq_some (orThrow_eq_ok.mp h)
    have hnone := OrderedMap.find?_eq_none_of_lt hnew
    rw [OrderedMap.find?_assign, if_pos rfl, OrderedMap.erase_assign Function.injective_id hnone]
    rfl
  · exact h.symm

theorem removeTransactionData_eq {s : Db} {data : TxData} {pruned : Bytes} {hashes : ById Hash}
    (hdata : s.txIndices.find? txHash = some data) (hpruned : s.txsPruned.find? data.txId = some pruned)
    (hhashes : s.removePrunableHash tx data.txId = .ok hashes) (hindices : s.txOutputs.find? data.txId = some indices)
    (hlength : indices.length = tx.vout.length) :
    s.removeTransactionData txHash tx =
      (s.outs.removeOutputs (removedAmount tx) tx.vout indices).map fun outs => { s with
        txsPruned := s.txsPruned.erase data.txId
        txsPrunable := s.txsPrunable.erase data.txId
        txsPrunableTip := s.removeTip data.txId
        txsPrunableHash := hashes
        outs := outs
        txOutputs := s.txOutputs.erase data.txId
        txIndices := s.txIndices.erase txHash } := by
  have hcheck : ¬(indices = [] ∧ tx.vout ≠ []) := by
    rintro ⟨rfl, hne⟩
    exact hne (List.length_eq_zero_iff.mp hlength.symm)
  rw [Db.removeTransactionData, hdata]
  change (orThrow DbError.dbError (s.txsPruned.find? data.txId) >>= fun _ => _) = _
  rw [hpruned]
  change (s.removePrunableHash tx data.txId >>= fun hashes => _) = _
  rw [hhashes]
  change (s.removeTxOutputs data.txId tx >>= fun outs => _) = _
  rw [Db.removeTxOutputs, hindices]
  change ((checkThrow (¬(indices = [] ∧ tx.vout ≠ [])) DbError.dbError >>= fun _ => _) >>= fun outs => _) = _
  rw [checkThrow, if_pos hcheck]
  change (s.outs.removeOutputs (removedAmount tx) tx.vout indices >>= fun outs => _) = _
  cases s.outs.removeOutputs (removedAmount tx) tx.vout indices <;> rfl

theorem removeTransactionData_withRows {base : Transaction}
    (h : TransactionAdded k db tx blob txHash indices db') (hfields : base.toTransactionPrefix = tx.toTransactionPrefix)
    (htip : db.TipBelow) (outs : OutputTables) :
    (db.withRows tx blob txHash db'.txsPrunableHash indices outs).removeTransactionData txHash base =
      (outs.removeOutputs (removedAmount tx) tx.vout indices).map fun outs => { db with outs := outs } := by
  have hamount : removedAmount base = removedAmount tx := by
    funext out
    rw [removedAmount, removedAmount, isCoinbase, isCoinbase, hfields]
  have hdata : (db.withRows tx blob txHash db'.txsPrunableHash indices outs).txIndices.find? txHash =
      some ⟨db.getTxCount, tx.unlockTime, db.height⟩ :=
    (OrderedMap.find?_assign _ _ _ _).trans (if_pos rfl)
  have hpruned : (db.withRows tx blob txHash db'.txsPrunableHash indices outs).txsPruned.find? db.getTxCount =
      some (blob.take (Db.unprunableLength tx)) :=
    (OrderedMap.find?_assign _ _ _ _).trans (if_pos rfl)
  have hindices : (db.withRows tx blob txHash db'.txsPrunableHash indices outs).txOutputs.find? db.getTxCount =
      some indices :=
    (OrderedMap.find?_assign _ _ _ _).trans (if_pos rfl)
  have hhashes := removePrunableHash_put h.prunableHash
    (rfl : (db.withRows tx blob txHash db'.txsPrunableHash indices outs).txsPrunableHash = db'.txsPrunableHash)
    (congrArg TransactionPrefix.version hfields)
  have hlength : indices.length = base.vout.length := by
    rw [hfields, (isSome_of_addOutputs h.outputs).1]
  rw [removeTransactionData_eq hdata hpruned hhashes hindices hlength, hamount, hfields, removeTip_putTip htip rfl]
  congr 1
  funext outs
  simp only [Db.withRows, OrderedMap.erase_assign hashKey_injective h.newHash,
    OrderedMap.erase_assign Function.injective_id h.newPruned, OrderedMap.erase_assign Function.injective_id h.newPrunable,
    OrderedMap.erase_assign Function.injective_id h.newOutputs]

theorem TransactionAdded.find_txIndices (h : TransactionAdded k db tx blob txHash indices db') :
    db'.txIndices.find? txHash = some ⟨db.getTxCount, tx.unlockTime, db.height⟩ := by
  rw [h.eq_with]
  exact (OrderedMap.find?_assign _ _ _ _).trans (if_pos rfl)

theorem TransactionAdded.find_txsPruned (h : TransactionAdded k db tx blob txHash indices db') :
    db'.txsPruned.find? db.getTxCount = some (blob.take (Db.unprunableLength tx)) := by
  rw [h.eq_with]
  exact (OrderedMap.find?_assign _ _ _ _).trans (if_pos rfl)

theorem TransactionAdded.find_txsPrunable (h : TransactionAdded k db tx blob txHash indices db') :
    db'.txsPrunable.find? db.getTxCount = some (blob.drop (Db.unprunableLength tx)) := by
  rw [h.eq_with]
  exact (OrderedMap.find?_assign _ _ _ _).trans (if_pos rfl)

theorem getPrunedTx_eq {s : Db} {data : TxData} {pruned : Bytes} (hdata : s.txIndices.find? txHash = some data)
    (hpruned : s.txsPruned.find? data.txId = some pruned) :
    s.getPrunedTx k txHash = orThrow .dbError (parseAndValidateTxBaseFromBlob k.scalarmultInvEight pruned) := by
  have hblob : s.getPrunedTxBlob txHash = some pruned := by
    rw [Db.getPrunedTxBlob, hdata]
    exact hpruned
  rw [Db.getPrunedTx, hblob]
  rfl

theorem TransactionAdded.getTxOrPruned (h : TransactionAdded k db tx blob txHash indices db') (outs : OutputTables) :
    Db.getTxOrPruned k { db' with outs := outs } txHash =
      orThrow .dbError (parseAndValidateTxFromBlob k.scalarmultInvEight blob) := by
  have hblob : Db.getTxBlob { db' with outs := outs } txHash = some blob := by
    rw [Db.getTxBlob]
    change (db'.txIndices.find? txHash).bind _ = _
    rw [h.find_txIndices]
    change (db'.txsPruned.find? db.getTxCount).bind _ = _
    rw [h.find_txsPruned]
    change (db'.txsPrunable.find? db.getTxCount).bind _ = _
    rw [h.find_txsPrunable]
    exact congrArg some (List.take_append_drop _ blob)
  rw [Db.getTxOrPruned, hblob]

theorem TransactionAdded.removeTransaction (h : TransactionAdded k db tx blob txHash indices db') (hbase : HasBase k tx blob)
    (htip : db.TipBelow) (outs : OutputTables) :
    Db.removeTransaction k { db' with outs := outs } txHash =
      (outs.removeOutputs (removedAmount tx) tx.vout indices).map fun outs => { db with outs := outs } := by
  obtain ⟨base, hparse, hfields⟩ := hbase.parse (isSome_of_addOutputs h.outputs).2
  have hread : Db.getPrunedTx k { db' with outs := outs } txHash = .ok base := by
    have hstored := @getPrunedTx_eq k txHash { db' with outs := outs } _ _ h.find_txIndices h.find_txsPruned
    rw [hstored, hbase.take_unprunable h.prunable_le, hparse]
    rfl
  have hkeys : base.vin.foldl Db.removeInput { db' with outs := outs } =
      db.withRows tx blob txHash db'.txsPrunableHash indices outs := by
    have hremoved := @InputsAdded.remove _ _ _ h.inputs { db' with outs := outs } rfl
    rw [hfields, hremoved, h.eq_with]
    rfl
  rw [Db.removeTransaction, hread]
  change (base.vin.foldl Db.removeInput { db' with outs := outs }).removeTransactionData txHash base = _
  rw [hkeys, removeTransactionData_withRows h hfields htip]

theorem TransactionAdded.blocks_eq (h : TransactionAdded k db tx blob txHash indices db') : db'.blocks = db.blocks := by
  rw [h.eq_with]
  rfl

theorem TransactionAdded.height_eq (h : TransactionAdded k db tx blob txHash indices db') : db'.height = db.height :=
  congrArg OrderedMap.size h.blocks_eq

theorem TransactionAdded.getTxCount_eq (h : TransactionAdded k db tx blob txHash indices db') :
    db'.getTxCount = db.getTxCount + 1 := by
  rw [h.eq_with]
  exact OrderedMap.size_assign h.newPruned _

theorem TransactionAdded.tipBelow (h : TransactionAdded k db tx blob txHash indices db') (htip : db.TipBelow) :
    db'.TipBelow := by
  intro x hx
  rw [h.getTxCount_eq, Nat.lt_succ_iff]
  have hput : x ∈ (db.putTip db.getTxCount).entries := by
    rw [h.eq_with] at hx
    exact hx
  rw [Db.putTip] at hput
  split_ifs at hput with hseed
  · exact (htip x hput).le
  · rcases OrderedMap.mem_assignEntries hput with rfl | ⟨y, hy, hxy⟩
    · exact le_rfl
    · rw [hxy]
      exact (htip y hy).le

inductive TransactionsAdded (k : DbFunctions) :
    Db → List Hash → List (Transaction × Bytes) → List (List ℕ) → Db → Prop
  | nil (db : Db) : TransactionsAdded k db [] [] [] db
  | cons {db db₁ db' : Db} {tx : Transaction} {blob : Bytes} {txHash : Hash} {indices : List ℕ} {hashes : List Hash}
      {txs : List (Transaction × Bytes)} {rest : List (List ℕ)}
      (head : TransactionAdded k db tx blob txHash indices db₁) (tail : TransactionsAdded k db₁ hashes txs rest db') :
      TransactionsAdded k db (txHash :: hashes) ((tx, blob) :: txs) (indices :: rest) db'

variable {hashes : List Hash} {txs : List (Transaction × Bytes)} {rows : List (List ℕ)}

theorem transactionsAdded_of_ok (hlength : hashes.length = txs.length)
    (h : Db.addTransactions k hashes txs db = .ok db') : ∃ rows, TransactionsAdded k db hashes txs rows db' := by
  induction hashes generalizing txs db with
  | nil =>
    obtain rfl := List.length_eq_zero_iff.mp hlength.symm
    cases h
    exact ⟨[], .nil _⟩
  | cons txHash hashes ih =>
    cases txs with
    | nil => cases hlength
    | cons p txs =>
      obtain ⟨tx, blob⟩ := p
      obtain ⟨db₁, hhead, htail⟩ := bind_eq_ok.mp h
      obtain ⟨indices, hadded⟩ := transactionAdded_of_ok hhead
      obtain ⟨rows, hrest⟩ := ih (Nat.succ.inj hlength) htail
      exact ⟨indices :: rows, .cons hadded hrest⟩

theorem TransactionsAdded.tipBelow (h : TransactionsAdded k db hashes txs rows db') (htip : db.TipBelow) :
    db'.TipBelow := by
  induction h with
  | nil db => exact htip
  | cons head tail ih => exact ih (head.tipBelow htip)

theorem TransactionsAdded.blocks_eq (h : TransactionsAdded k db hashes txs rows db') : db'.blocks = db.blocks := by
  induction h with
  | nil db => rfl
  | cons head tail ih => exact ih.trans head.blocks_eq

theorem TransactionsAdded.keys (h : TransactionsAdded k db hashes txs rows db') :
    KeysAdded db.spentKeys (txs.flatMap fun p => keyImages p.1.vin) db'.spentKeys := by
  induction h with
  | nil db => exact keysAdded_nil _
  | cons head tail ih => exact head.inputs.keys.trans ih

def removeAll (k : DbFunctions) :
    List (Transaction × Bytes) → List (List ℕ) → OutputTables → Except DbError (List Transaction × OutputTables)
  | (tx, blob) :: txs, indices :: rows, outs => do
    let (read, outs) ← removeAll k txs rows outs
    let whole ← orThrow .dbError (parseAndValidateTxFromBlob k.scalarmultInvEight blob)
    let outs ← outs.removeOutputs (removedAmount tx) tx.vout indices
    .ok (read ++ [whole], outs)
  | _, _, outs => .ok ([], outs)

theorem TransactionsAdded.popTransactions (h : TransactionsAdded k db hashes txs rows db')
    (hbase : ∀ p ∈ txs, HasBase k p.1 p.2) (htip : db.TipBelow) (outs : OutputTables) :
    Db.popTransactions k hashes { db' with outs := outs } =
      (removeAll k txs rows outs).map fun x => (x.1, { db with outs := x.2 }) := by
  induction h with
  | nil db => rfl
  | cons head tail ih =>
    obtain ⟨hhead, hbase⟩ := List.forall_mem_cons.mp hbase
    rw [Db.popTransactions, ih hbase (head.tipBelow htip), removeAll]
    cases removeAll k _ _ outs with
    | error e => rfl
    | ok x =>
      obtain ⟨read, outs⟩ := x
      change (Db.getTxOrPruned k _ _ >>= fun tx => _) = Except.map _ (orThrow _ _ >>= fun whole => _)
      rw [head.getTxOrPruned]
      cases orThrow DbError.dbError (parseAndValidateTxFromBlob k.scalarmultInvEight _) with
      | error e => rfl
      | ok whole =>
        change (Db.removeTransaction k _ _ >>= fun db => _) = Except.map _ (OutputTables.removeOutputs _ _ _ _ >>= fun outs => _)
        rw [head.removeTransaction hhead htip]
        cases OutputTables.removeOutputs _ _ _ outs <;> rfl

theorem TransactionsAdded.amountCount (h : TransactionsAdded k db hashes txs rows db') {outs outs' : OutputTables}
    {read : List Transaction} (hremove : removeAll k txs rows outs = .ok (read, outs')) :
    db'.outs.amountCount 0 = db.outs.amountCount 0 + (txs.map fun p => storedZeros p.1).sum ∧
      outs.amountCount 0 = outs'.amountCount 0 + (txs.map fun p => removedZeros p.1).sum := by
  induction h generalizing read outs' with
  | nil db =>
    cases hremove
    exact ⟨rfl, rfl⟩
  | cons head tail ih =>
    obtain ⟨⟨read₁, outs₁⟩, hrest, hremove⟩ := bind_eq_ok.mp hremove
    obtain ⟨whole, -, hremove⟩ := bind_eq_ok.mp hremove
    obtain ⟨outs₂, hhead, hremove⟩ := bind_eq_ok.mp hremove
    cases hremove
    obtain ⟨hadded, hremoved⟩ := ih hrest
    rw [amountCount_addOutputs head.outputs] at hadded
    rw [amountCount_removeOutputs hhead] at hremoved
    rw [hadded, hremoved, List.map_cons, List.map_cons, List.sum_cons, List.sum_cons, storedZeros, removedZeros]
    exact ⟨add_assoc _ _ _, add_assoc _ _ _⟩

theorem TransactionsAdded.restore (h : TransactionsAdded k db hashes txs rows db')
    (hmatch : ∀ p ∈ txs, (∀ out ∈ p.1.vout, removedAmount p.1 out = storedAmount p.1 out) ∧
      parseAndValidateTxFromBlob k.scalarmultInvEight p.2 = some p.1) :
    removeAll k txs rows db'.outs = .ok ((txs.map Prod.fst).reverse, db.outs) := by
  induction h with
  | nil db => rfl
  | cons head tail ih =>
    obtain ⟨⟨houts, hwhole⟩, hmatch⟩ := List.forall_mem_cons.mp hmatch
    have houtputs := removeOutputs_addOutputs head.outputs houts
    refine bind_eq_ok.mpr ⟨_, ih hmatch, bind_eq_ok.mpr ⟨_, orThrow_eq_ok.mpr hwhole, bind_eq_ok.mpr ⟨_, houtputs, ?_⟩⟩⟩
    rw [List.map_cons, List.reverse_cons]

theorem TransactionsAdded.read_eq (h : TransactionsAdded k db hashes txs rows db') {outs outs' : OutputTables}
    (hremove : removeAll k txs rows outs = .ok ((txs.map Prod.fst).reverse, outs')) :
    ∀ p ∈ txs, parseAndValidateTxFromBlob k.scalarmultInvEight p.2 = some p.1 := by
  induction h generalizing outs' with
  | nil db => exact List.forall_mem_nil _
  | cons head tail ih =>
    obtain ⟨⟨read₁, outs₁⟩, hrest, hremove⟩ := bind_eq_ok.mp hremove
    obtain ⟨whole, hwhole, hremove⟩ := bind_eq_ok.mp hremove
    obtain ⟨outs₂, -, hremove⟩ := bind_eq_ok.mp hremove
    rw [List.map_cons, List.reverse_cons] at hremove
    obtain ⟨hread, hlast⟩ := List.append_inj' (congrArg Prod.fst (Except.ok.inj hremove)) rfl
    cases hlast
    exact List.forall_mem_cons.mpr ⟨orThrow_eq_ok.mp hwhole, ih (hread ▸ hrest)⟩

end

end Velkavo.BlockchainDb
