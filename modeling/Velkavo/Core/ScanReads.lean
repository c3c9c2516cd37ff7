import Velkavo.Core.RingMembers

namespace Velkavo.Core

open ByteCodec Cryptonote PartialLookup

section

variable (k : CurveFunctions) (s : TxChain) (handleOutput : List OutputData → OutputData → Bool)

def visitMembers (amount : UInt64) : List UInt64 → List OutputData → List OutputData → ℕ → List OutputData × Option ℕ
  | [], _, given, pmax => (given, some pmax)
  | i :: rest, outputs, given, pmax =>
    match outputs.head?.or (getOutputKey k s amount i) with
    | none => (given, none)
    | some output =>
      if handleOutput given output then
        visitMembers amount rest outputs.tail (given ++ [output])
          (if rest.isEmpty ∧ pmax < output.height then output.height else pmax)
      else (given ++ [output], none)

def visitOutputkeysForIndexes (txPrefixHash : Hash) (txin : TxinToKey) (pmax : ℕ) : List OutputData × Option ℕ :=
  if txin.keyOffsets.isEmpty then ([], none)
  else
    match fetchOutputs k s txPrefixHash txin with
    | none => ([], none)
    | some outputs => visitMembers k s handleOutput txin.amount (ring txin) outputs [] pmax

end

variable {k : CurveFunctions} {v : InputVerifier} {s : TxChain} {handleOutput : List OutputData → OutputData → Bool}
  {amount : UInt64} {idx : List UInt64} {outputs given members : List OutputData} {pmax : ℕ}

theorem visitMembers_found (hfound : Found (getOutputKey k s amount) idx outputs) :
    visitMembers k s handleOutput amount idx outputs given pmax =
      visitMembers k s handleOutput amount idx [] given pmax := by
  induction idx generalizing outputs given pmax with
  | nil => rfl
  | cons i idx ih =>
    rw [visitMembers, visitMembers, hfound.head?_or, List.head?_nil, Option.none_or, List.tail_nil]
    cases getOutputKey k s amount i with
    | none => rfl
    | some o =>
      dsimp only
      rw [ih hfound.tail]

theorem visitMembers_missing (h : ∃ i ∈ idx, getOutputKey k s amount i = none) :
    (visitMembers k s handleOutput amount idx [] given pmax).2 = none := by
  induction idx generalizing given pmax with
  | nil =>
    obtain ⟨i, hi, -⟩ := h
    cases hi
  | cons i idx ih =>
    rw [visitMembers, List.head?_nil, Option.none_or, List.tail_nil]
    cases hi : getOutputKey k s amount i with
    | none => rfl
    | some o =>
      dsimp only
      split
      · apply ih
        obtain ⟨j, hj, hnone⟩ := h
        rcases List.mem_cons.mp hj with rfl | hj
        · rw [hi] at hnone
          cases hnone
        · exact ⟨j, hj, hnone⟩
      · rfl

theorem given_isPrefix_visitMembers : given <+: (visitMembers k s handleOutput amount idx [] given pmax).1 := by
  induction idx generalizing given pmax with
  | nil => exact List.prefix_rfl
  | cons i idx ih =>
    rw [visitMembers, List.head?_nil, Option.none_or, List.tail_nil]
    cases getOutputKey k s amount i with
    | none => exact List.prefix_rfl
    | some o =>
      dsimp only
      split
      · exact (List.prefix_append given [o]).trans ih
      · exact List.prefix_append given [o]

def TxChain.direct (s : TxChain) : TxChain := { s with scanTable := ∅ }

theorem visitMembers_direct :
    visitMembers k s.direct handleOutput amount idx outputs given pmax =
      visitMembers k s handleOutput amount idx outputs given pmax := by
  induction idx generalizing outputs given pmax with
  | nil => rfl
  | cons i idx ih =>
    rw [visitMembers, visitMembers]
    simp only [ih]
    rfl

theorem visit_untabled {txPrefixHash : Hash} {txin : TxinToKey} (hne : txin.keyOffsets.isEmpty = false)
    (htable : (s.scanTable.find? txPrefixHash).bind (·.find? txin.kImage) = none)
    [Decidable (∀ i ∈ ring txin, getOutputKey k s txin.amount i ≠ none)] :
    visitOutputkeysForIndexes k s handleOutput txPrefixHash txin pmax =
      if ∀ i ∈ ring txin, getOutputKey k s txin.amount i ≠ none then
        visitMembers k s handleOutput txin.amount (ring txin) [] [] pmax
      else ([], none) := by
  have hlen : (ring txin).length = (getOutputKeys k s txin.amount (ring txin)).length ↔
      ∀ i ∈ ring txin, getOutputKey k s txin.amount i ≠ none := eq_comm.trans length_lookupWhile_eq_iff
  rw [visitOutputkeysForIndexes, hne, if_neg Bool.false_ne_true, fetchOutputs]
  dsimp only
  rw [htable]
  dsimp only
  by_cases hall : ∀ i ∈ ring txin, getOutputKey k s txin.amount i ≠ none
  · rw [if_pos hall, if_neg (not_not.mpr (hlen.mpr hall))]
    exact visitMembers_found (found_lookupWhile _ _)
  · rw [if_neg hall, if_pos (hlen.not.mpr hall)]

theorem visit_direct (txPrefixHash : Hash) {txin : TxinToKey} (hne : txin.keyOffsets.isEmpty = false)
    [Decidable (∀ i ∈ ring txin, getOutputKey k s txin.amount i ≠ none)] :
    visitOutputkeysForIndexes k s.direct handleOutput txPrefixHash txin pmax =
      if ∀ i ∈ ring txin, getOutputKey k s txin.amount i ≠ none then
        visitMembers k s handleOutput txin.amount (ring txin) [] [] pmax
      else ([], none) := by
  rw [visit_untabled hne rfl, visitMembers_direct]
  exact if_congr Iff.rfl rfl rfl

def Late (k : CurveFunctions) (s : TxChain) (txPrefixHash : Hash) (txin : TxinToKey) : Prop :=
  (s.scanTable.find? txPrefixHash).bind (·.find? txin.kImage) = some [] ∧
    (∃ i ∈ (ring txin).head?, getOutputKey k s txin.amount i ≠ none) ∧ ∃ i ∈ ring txin, getOutputKey k s txin.amount i = none

theorem visit_table {txPrefixHash : Hash} {txin : TxinToKey} (hne : txin.keyOffsets.isEmpty = false)
    (htable : (s.scanTable.find? txPrefixHash).bind (·.find? txin.kImage) = some outputs)
    (hfound : Found (getOutputKey k s txin.amount) (ring txin) outputs) (hsome : outputs ≠ []) :
    visitOutputkeysForIndexes k s handleOutput txPrefixHash txin pmax =
      visitOutputkeysForIndexes k s.direct handleOutput txPrefixHash txin pmax := by
  have hlen : ((ring txin).drop outputs.length).length =
        (getOutputKeys k s txin.amount ((ring txin).drop outputs.length)).length ↔
      ∀ i ∈ ring txin, getOutputKey k s txin.amount i ≠ none := by
    rw [hfound.forall_iff]
    exact eq_comm.trans length_lookupWhile_eq_iff
  rw [visit_direct txPrefixHash hne, visitOutputkeysForIndexes, hne, if_neg Bool.false_ne_true, fetchOutputs]
  dsimp only
  rw [htable]
  dsimp only
  by_cases hpart : outputs.length < (ring txin).length ∧ 0 < outputs.length
  · rw [if_pos hpart]
    by_cases hall : ∀ i ∈ ring txin, getOutputKey k s txin.amount i ≠ none
    · rw [if_pos hall, if_neg (not_not.mpr (hlen.mpr hall))]
      exact visitMembers_found (hfound.append (found_lookupWhile _ _))
    · rw [if_neg hall, if_pos (hlen.not.mpr hall)]
  · have hall : ∀ i ∈ ring txin, getOutputKey k s txin.amount i ≠ none := by
      have hpos := List.length_pos_of_ne_nil hsome
      rw [hfound.forall_iff, List.drop_of_length_le (by omega)]
      exact fun i hi => absurd hi List.not_mem_nil
    rw [if_neg hpart, if_pos hall]
    exact visitMembers_found hfound

theorem visit_table_nil {txPrefixHash : Hash} {txin : TxinToKey} (hne : txin.keyOffsets.isEmpty = false)
    (htable : (s.scanTable.find? txPrefixHash).bind (·.find? txin.kImage) = some []) :
    visitOutputkeysForIndexes k s handleOutput txPrefixHash txin pmax =
      visitMembers k s handleOutput txin.amount (ring txin) [] [] pmax := by
  rw [visitOutputkeysForIndexes, hne, if_neg Bool.false_ne_true, fetchOutputs]
  dsimp only
  rw [htable]
  dsimp only
  rw [if_neg fun h => Nat.lt_irrefl 0 h.2]

theorem ring_ne_nil {txin : TxinToKey} (hne : txin.keyOffsets.isEmpty = false) : ring txin ≠ [] := by
  have hpos := List.length_pos_of_ne_nil (List.isEmpty_eq_false_iff.mp hne)
  apply List.ne_nil_of_length_pos
  rwa [ring, length_relativeOutputOffsetsToAbsolute]

theorem visitMembers_nil_iff {i : UInt64} {rest : List UInt64} :
    (visitMembers k s handleOutput amount (i :: rest) [] [] pmax).1 = [] ↔ getOutputKey k s amount i = none := by
  rw [visitMembers, List.head?_nil, Option.none_or, List.tail_nil]
  cases getOutputKey k s amount i with
  | none => simp
  | some o =>
    dsimp only
    rw [List.nil_append]
    split
    · have hpre := @given_isPrefix_visitMembers k s handleOutput amount rest [o]
        (if rest.isEmpty ∧ pmax < o.height then o.height else pmax)
      refine iff_of_false (fun hnil => ?_) (Option.some_ne_none o)
      rw [hnil] at hpre
      exact List.cons_ne_nil o [] (List.prefix_nil.mp hpre)
    · simp

theorem visit_same (k : CurveFunctions) (v : InputVerifier) (ops : List ChainOp) (hfVersion : UInt8) (tx : Transaction)
    (hsemantic : checkTxSemantic k tx hfVersion = .ok ())
    (hbinding : ∀ tx' ∈ ops.flatMap ChainOp.prepared,
      v.getTransactionPrefixHash tx' = v.getTransactionPrefixHash tx → tx'.vin = tx.vin)
    (txin : TxinToKey) (htxin : txin ∈ toKeyInputs tx) (handleOutput : List OutputData → OutputData → Bool) (pmax : ℕ) :
    let s := chainAfter k v ops
    let table := visitOutputkeysForIndexes k s handleOutput (v.getTransactionPrefixHash tx) txin pmax
    let direct := visitOutputkeysForIndexes k s.direct handleOutput (v.getTransactionPrefixHash tx) txin pmax
    table.2 = direct.2 ∧ (direct.2 ≠ none → table.1 = direct.1) ∧
      (table.1 = direct.1 ↔ ¬Late k s (v.getTransactionPrefixHash tx) txin) := by
  intro s table direct
  have hcons : Consistent k v s tx :=
    (scanTableSound_chainAfter ops).consistent (nodup_kImage_of_checkTxSemantic k hsemantic) hbinding
  have hsame : table = direct → ¬Late k s (v.getTransactionPrefixHash tx) txin →
      table.2 = direct.2 ∧ (direct.2 ≠ none → table.1 = direct.1) ∧
        (table.1 = direct.1 ↔ ¬Late k s (v.getTransactionPrefixHash tx) txin) := by
    intro heq hnot
    rw [heq]
    exact ⟨rfl, fun _ => rfl, iff_of_true rfl hnot⟩
  by_cases hne : txin.keyOffsets.isEmpty = true
  · have hnil : ring txin = [] := by
      rw [ring, List.isEmpty_iff.mp hne]
      rfl
    refine hsame ?_ ?_
    · simp only [table, direct, visitOutputkeysForIndexes, hne, if_true]
    · rintro ⟨-, ⟨i, hi, -⟩, -⟩
      rw [hnil] at hi
      cases hi
  rw [Bool.not_eq_true] at hne
  cases htable : (s.scanTable.find? (v.getTransactionPrefixHash tx)).bind (·.find? txin.kImage) with
  | none =>
    refine hsame ?_ fun hlate => ?_
    · exact (visit_untabled hne htable).trans (visit_direct _ hne).symm
    · rw [Late, htable] at hlate
      cases hlate.1
  | some outputs =>
    by_cases hsome : outputs = []
    case neg =>
      refine hsame (visit_table hne htable (hcons txin htxin outputs htable) hsome) fun hlate => ?_
      rw [Late, htable] at hlate
      exact hsome (Option.some.inj hlate.1)
    subst hsome
    have hvisit : table = visitMembers k s handleOutput txin.amount (ring txin) [] [] pmax := visit_table_nil hne htable
    have hdirect := @visit_direct k s handleOutput pmax (v.getTransactionPrefixHash tx) txin hne inferInstance
    change direct = _ at hdirect
    by_cases hall : ∀ i ∈ ring txin, getOutputKey k s txin.amount i ≠ none
    · rw [if_pos hall] at hdirect
      exact hsame (hvisit.trans hdirect.symm) fun hlate => by
        obtain ⟨-, -, i, hi, hnone⟩ := hlate
        exact hall i hi hnone
    · rw [if_neg hall] at hdirect
      push Not at hall
      rw [hdirect, hvisit]
      refine ⟨visitMembers_missing hall, fun h => absurd rfl h, ?_⟩
      obtain ⟨i, rest, hring⟩ := List.exists_cons_of_ne_nil (ring_ne_nil hne)
      have hlate : Late k s (v.getTransactionPrefixHash tx) txin ↔ getOutputKey k s txin.amount i ≠ none := by
        rw [Late, hring, List.head?_cons]
        constructor
        · rintro ⟨-, ⟨j, hj, hfirst⟩, -⟩
          rwa [Option.mem_some_iff.mp hj]
        · exact fun hfirst => ⟨htable, ⟨i, rfl, hfirst⟩, hring ▸ hall⟩
      rw [hlate, not_not, hring]
      exact visitMembers_nil_iff

namespace Prefetched

open Rewound (curve verifier output)

def txin : TxinToKey where
  amount := 0
  keyOffsets := 0 :: List.replicate 15 1
  kImage := Blob.zero 32

def tx : Transaction := { Rewound.tx with vin := [.toKey txin] }

def ops (outputs : ℕ) : List ChainOp :=
  [.prepareHandleIncomingBlocks [tx], .addBlock { outputs := List.replicate outputs output, keyImages := [] }]

theorem binding (outputs : ℕ) : ∀ tx' ∈ (ops outputs).flatMap ChainOp.prepared,
    verifier.getTransactionPrefixHash tx' = verifier.getTransactionPrefixHash tx → tx'.vin = tx.vin := by
  intro tx' hmem _
  rw [List.mem_singleton.mp (hmem : tx' ∈ [tx])]

theorem table_nil (outputs : ℕ) :
    ((chainAfter curve verifier (ops outputs)).scanTable.find? nullHash).bind (·.find? txin.kImage) = some [] := by
  have hnone : ∀ l, getOutputKeys curve { blocks := [], scanTable := ∅ } 0 l = [] := by
    intro l
    cases l <;> rfl
  have hfound : ((chainAfter curve verifier (ops outputs)).scanTable.find? nullHash).bind (·.find? txin.kImage) =
      some (tableOutputs curve { blocks := [], scanTable := ∅ } [tx] txin) := rfl
  rw [hfound, tableOutputs, show txin.amount = 0 from rfl, hnone]
  rfl

theorem visit_same_sixteen :
    visitOutputkeysForIndexes curve (chainAfter curve verifier (ops 16)) (fun _ _ => true) nullHash txin 0 =
      visitOutputkeysForIndexes curve (chainAfter curve verifier (ops 16)).direct (fun _ _ => true) nullHash txin 0 := by
  obtain ⟨hresult, hgiven, -⟩ := visit_same curve verifier (ops 16) 16 tx rfl (binding 16) txin
    (List.mem_singleton.mpr rfl) (fun _ _ => true) 0
  refine Prod.ext (hgiven ?_) hresult
  have hsome : (visitOutputkeysForIndexes curve (chainAfter curve verifier (ops 16)).direct (fun _ _ => true) nullHash txin
      0).2 = some 0 := by
    decide +kernel
  intro hnone
  cases hsome.symm.trans hnone

theorem visit_differs :
    checkTxSemantic curve tx 16 = .ok () ∧
      (visitOutputkeysForIndexes curve (chainAfter curve verifier (ops 1)) (fun _ _ => true) nullHash txin 0).1.length = 1 ∧
      (visitOutputkeysForIndexes curve (chainAfter curve verifier (ops 1)).direct (fun _ _ => true) nullHash txin 0).1.length =
        0 := by
  refine ⟨rfl, ?_, ?_⟩
  · rw [visit_table_nil rfl (table_nil 1)]
    decide +kernel
  · decide +kernel

end Prefetched

end Velkavo.Core
