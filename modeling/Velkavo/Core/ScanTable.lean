import Velkavo.Core.TxInputs

namespace Velkavo.Core

open Cryptonote PartialLookup

variable (k : CurveFunctions) (v : InputVerifier)

def offsetMap (txs : List Transaction) (amount : UInt64) : List UInt64 :=
  ((((txs.flatMap toKeyInputs).filter (·.amount = amount)).flatMap ring).mergeSort (· ≤ ·)).dedup

def tableOutputs (s : TxChain) (txs : List Transaction) (txin : TxinToKey) : List OutputData :=
  let offsets := offsetMap txs txin.amount
  let outputs := getOutputKeys k s txin.amount offsets
  lookupWhile (fun offsetNeeded => outputs[offsets.idxOf offsetNeeded]?) (ring txin)

def tableEntry (s : TxChain) (txs : List Transaction) (tx : Transaction) :
    Hash × UnorderedMap KeyImage (List OutputData) :=
  (v.getTransactionPrefixHash tx,
    UnorderedMap.ofList ((toKeyInputs tx).map fun txin => (txin.kImage, tableOutputs k s txs txin)))

def prepareScanTable (s : TxChain) (txs : List Transaction) :
    UnorderedMap Hash (UnorderedMap KeyImage (List OutputData)) :=
  if (txs.map v.getTransactionPrefixHash).Nodup ∧ txs.all checkInputsTypesSupported then
    UnorderedMap.ofList (txs.map (tableEntry k v s txs))
  else ∅

inductive ChainOp
  | addBlock (b : StoredBlock)
  | popBlockFromBlockchain
  | prepareHandleIncomingBlocks (txs : List Transaction)
  | cleanupHandleIncomingBlocks

def applyOp (s : TxChain) : ChainOp → TxChain
  | .addBlock b => { s with blocks := s.blocks ++ [b] }
  | .popBlockFromBlockchain => { blocks := s.blocks.dropLast, scanTable := ∅ }
  | .prepareHandleIncomingBlocks txs => { s with scanTable := prepareScanTable k v s txs }
  | .cleanupHandleIncomingBlocks => { s with scanTable := ∅ }

def chainAfter (ops : List ChainOp) : TxChain := ops.foldl (applyOp k v) { blocks := [], scanTable := ∅ }

def ChainOp.prepared : ChainOp → List Transaction
  | .prepareHandleIncomingBlocks txs => txs
  | _ => []

def ScanTableSound (s : TxChain) (txs : List Transaction) : Prop :=
  ∀ hash images kImage outputs, s.scanTable.find? hash = some images → images.find? kImage = some outputs →
    ∃ tx ∈ txs, v.getTransactionPrefixHash tx = hash ∧ ∃ txin ∈ toKeyInputs tx, txin.kImage = kImage ∧
      Found (getOutputKey k s txin.amount) (ring txin) outputs

variable {k v}

theorem outputsFrom_append (amount : UInt64) (height : ℕ) (l m : List StoredBlock) :
    outputsFrom k amount height (l ++ m) =
      outputsFrom k amount height l ++ outputsFrom k amount (height + l.length) m := by
  induction l generalizing height with
  | nil => rfl
  | cons b l ih =>
    rw [List.cons_append, outputsFrom, outputsFrom, ih, List.append_assoc, List.length_cons,
      Nat.add_right_comm height 1, Nat.add_assoc height]

theorem getOutputKey_addBlock {s : TxChain} {amount i : UInt64} {o : OutputData} (b : StoredBlock)
    (h : getOutputKey k s amount i = some o) :
    getOutputKey k (applyOp k v s (.addBlock b)) amount i = some o := by
  have hlt := (List.getElem?_eq_some_iff.mp h).1
  rw [getOutputKey, applyOp, outputsFrom_append, List.getElem?_append_left hlt]
  exact h

theorem found_tableOutputs (s : TxChain) (txs : List Transaction) (txin : TxinToKey) :
    Found (getOutputKey k s txin.amount) (ring txin) (tableOutputs k s txs txin) := by
  apply (found_lookupWhile _ _).mono
  intro a o ho
  obtain ⟨i, hi, ho⟩ := (found_lookupWhile _ _).getElem? ho
  obtain ⟨hlt, rfl⟩ := List.getElem?_eq_some_iff.mp hi
  rwa [List.getElem_idxOf] at ho

theorem scanTableSound_of_empty {s : TxChain} (txs : List Transaction) (h : s.scanTable = ∅) :
    ScanTableSound k v s txs := by
  intro hash images kImage outputs hhash
  rw [h] at hhash
  cases hhash

theorem scanTableSound_prepare (s : TxChain) (txs : List Transaction) :
    ScanTableSound k v (applyOp k v s (.prepareHandleIncomingBlocks txs)) txs := by
  intro hash images kImage outputs hhash himage
  rw [applyOp, prepareScanTable] at hhash
  split_ifs at hhash with hprep
  · obtain ⟨tx, htx, heq⟩ := List.mem_map.mp (UnorderedMap.mem_of_mem_ofList (UnorderedMap.mem_of_find? hhash))
    cases heq
    obtain ⟨txin, htxin, heq⟩ :=
      List.mem_map.mp (UnorderedMap.mem_of_mem_ofList (UnorderedMap.mem_of_find? himage))
    cases heq
    exact ⟨tx, htx, rfl, txin, htxin, rfl, found_tableOutputs s txs txin⟩
  · cases hhash

theorem ScanTableSound.applyOp {s : TxChain} {txs : List Transaction} (h : ScanTableSound k v s txs) (op : ChainOp) :
    ScanTableSound k v (applyOp k v s op) (txs ++ op.prepared) := by
  cases op with
  | addBlock b =>
    intro hash images kImage outputs hhash himage
    obtain ⟨tx, htx, hhash, txin, htxin, himage, hfound⟩ := h _ _ _ _ hhash himage
    exact ⟨tx, List.mem_append_left _ htx, hhash, txin, htxin, himage,
      hfound.mono fun i o ho => getOutputKey_addBlock b ho⟩
  | popBlockFromBlockchain => exact scanTableSound_of_empty _ rfl
  | prepareHandleIncomingBlocks txs' =>
    intro hash images kImage outputs hhash himage
    obtain ⟨tx, htx, hrest⟩ := scanTableSound_prepare s txs' _ _ _ _ hhash himage
    exact ⟨tx, List.mem_append_right _ htx, hrest⟩
  | cleanupHandleIncomingBlocks => exact scanTableSound_of_empty _ rfl

theorem scanTableSound_chainAfter (ops : List ChainOp) :
    ScanTableSound k v (chainAfter k v ops) (ops.flatMap ChainOp.prepared) := by
  induction ops using List.reverseRecOn with
  | nil => exact scanTableSound_of_empty _ rfl
  | append_singleton ops op ih =>
    rw [chainAfter, List.foldl_concat, List.flatMap_append, List.flatMap_singleton]
    exact ih.applyOp op

def Consistent (k : CurveFunctions) (v : InputVerifier) (s : TxChain) (tx : Transaction) : Prop :=
  ∀ txin ∈ toKeyInputs tx, ∀ outputs,
    (s.scanTable.find? (v.getTransactionPrefixHash tx)).bind (·.find? txin.kImage) = some outputs →
      Found (getOutputKey k s txin.amount) (ring txin) outputs

theorem ScanTableSound.consistent {s : TxChain} {txs : List Transaction} {tx : Transaction}
    (h : ScanTableSound k v s txs) (himages : ((toKeyInputs tx).map TxinToKey.kImage).Nodup)
    (hbinding : ∀ tx' ∈ txs, v.getTransactionPrefixHash tx' = v.getTransactionPrefixHash tx → tx'.vin = tx.vin) :
    Consistent k v s tx := by
  intro txin htxin outputs hfind
  obtain ⟨images, hhash, himage⟩ := Option.bind_eq_some_iff.mp hfind
  obtain ⟨tx', htx', heq, txin', htxin', hki, hfound⟩ := h _ _ _ _ hhash himage
  have hmem : txin' ∈ toKeyInputs tx := by
    rw [toKeyInputs, hbinding tx' htx' heq] at htxin'
    exact htxin'
  rwa [List.inj_on_of_nodup_map himages hmem htxin hki] at hfound

end Velkavo.Core
