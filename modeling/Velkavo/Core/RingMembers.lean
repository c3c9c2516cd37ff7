import Velkavo.Core.RingScan

namespace Velkavo.Core

open ByteCodec Cryptonote Rct PartialLookup

section

variable (k : CurveFunctions) (v : InputVerifier)

def RctInputs (tx : Transaction) : Prop := ∀ i ∈ tx.vin, ∃ txin : TxinToKey, i = .toKey txin ∧ txin.amount = 0

/-- The transaction passes both checks on the chain as these operations leave it. No other prepared transaction
has its prefix hash. -/
structure Accepted (ops : List ChainOp) (now : UInt64) (hfVersion : UInt8) (tx : Transaction) (validId : Hash) :
    Prop where
  binding : ∀ tx' ∈ ops.flatMap ChainOp.prepared,
    v.getTransactionPrefixHash tx' = v.getTransactionPrefixHash tx → tx'.vin = tx.vin
  semantic : checkTxSemantic k tx hfVersion = .ok ()
  inputs : ∃ r, checkTxInputs k v (chainAfter k v ops) now hfVersion tx validId = .ok r

def RingsDistinct (tx : Transaction) : Prop := ∀ txin ∈ toKeyInputs tx, (ring txin).Nodup

def RingsOld (s : TxChain) (tx : Transaction) : Prop :=
  ∀ txin ∈ toKeyInputs tx, ∀ a ∈ ring txin, ∃ o, getOutputKey k s txin.amount a = some o ∧
    o.height + cryptonoteDefaultTxSpendableAge ≤ s.height

def RingLaw (hfVersion : UInt8) (tx : Transaction) : Prop :=
  ∀ ops now validId, Accepted k v ops now hfVersion tx validId →
    RingsDistinct tx ∧ RingsOld k (chainAfter k v ops) tx

def OffsetsInOrder (tx : Transaction) : Prop :=
  ∀ txin ∈ toKeyInputs tx, NoRound txin.keyOffsets ∧
    ∀ n, 0 < n → n ≤ txin.keyOffsets.length → ∃ txin' ∈ toKeyInputs tx,
      offsetSum (txin.keyOffsets.take n) % 2 ^ 64 ≤ offsetSum txin'.keyOffsets % 2 ^ 64

end

variable {k : CurveFunctions} {v : InputVerifier} {s : TxChain} {now : UInt64} {hfVersion : UInt8}

theorem RctInputs.amount_eq {tx : Transaction} (h : RctInputs tx) {txin : TxinToKey} (hmem : txin ∈ toKeyInputs tx) :
    txin.amount = 0 := by
  obtain ⟨txin', heq, hamount⟩ := h _ (mem_toKeyInputs.mp hmem)
  cases heq
  exact hamount

theorem foldl_countMixin_eq {tx : Transaction} (h : RctInputs tx) (s s' : TxChain) (m : MixinCount) :
    tx.vin.foldl (countMixin k s hfVersion) m = tx.vin.foldl (countMixin k s' hfVersion) m := by
  apply List.foldl_ext
  intro m i hi
  obtain ⟨txin, rfl, hamount⟩ := h i hi
  rw [countMixin, countMixin, if_pos hamount, if_pos hamount]

theorem nUnmixable_foldl_countMixin {tx : Transaction} (h : RctInputs tx) (m : MixinCount) :
    (tx.vin.foldl (countMixin k s hfVersion) m).nUnmixable = m.nUnmixable := by
  have hall : ∀ vin ⊆ tx.vin, ∀ m : MixinCount,
      (vin.foldl (countMixin k s hfVersion) m).nUnmixable = m.nUnmixable := by
    intro vin
    induction vin with
    | nil => exact fun _ m => rfl
    | cons i vin ih =>
      intro hsub m
      obtain ⟨txin, rfl, hamount⟩ := h i (hsub List.mem_cons_self)
      rw [List.foldl_cons, ih (fun j hj => hsub (List.mem_cons_of_mem _ hj)), countMixin, if_pos hamount]
  exact hall tx.vin (List.Subset.refl _) m

theorem version_ne_one {tx : Transaction} (h : RctInputs tx) (hhf : 15 ≤ hfVersion)
    (hmixin : checkMixin k s tx hfVersion = .ok ()) : tx.version ≠ 1 := by
  have hfork : 2 ≤ hfVersion := UInt8.le_trans (by decide) hhf
  have hrct : 6 ≤ hfVersion := UInt8.le_trans (by decide) hhf
  rw [checkMixin, if_pos hfork] at hmixin
  simp only [require_bind, require_eq_ok] at hmixin
  have hmin := of_decide_eq_true hmixin.2.2.2
  rw [minTxVersion, nUnmixable_foldl_countMixin h, if_neg (Nat.lt_irrefl 0), if_pos hrct] at hmin
  rintro hone
  rw [hone] at hmin
  exact absurd hmin (by decide)

theorem checkMixin_eq {tx : Transaction} (h : RctInputs tx) (s s' : TxChain) :
    checkMixin k s tx hfVersion = checkMixin k s' tx hfVersion := by
  rw [checkMixin, checkMixin, foldl_countMixin_eq h s s']

variable {validId : Hash}

theorem checkTxInputs_eq_ok {tx : Transaction} {r : Hash × ℕ} :
    checkTxInputs k v s now hfVersion tx validId = .ok r ↔
      (hfVersion < 12 || tx.version < 2 || 2 ≤ tx.vout.length) = true ∧ checkMixin k s tx hfVersion = .ok () ∧
        checkSortedIns tx hfVersion = true ∧ ∃ ins, checkIns k v s now hfVersion tx 0 tx.vin 0 = .ok ins ∧
          (hfVersion < 12 || ins.2 + cryptonoteDefaultTxSpendableAge ≤ s.height) = true ∧
            ∃ id, verifyIns v tx ins.1 validId = .ok id ∧ (id, ins.2) = r := by
  simp only [checkTxInputs, Effects.bind_eq_ok, require_eq_ok, Unique.exists_iff, PUnit.default_eq_unit,
    Except.ok.injEq]

theorem le_height_of_mem_outputsFrom {amount : UInt64} {height : ℕ} {l : List StoredBlock} {o : OutputData}
    (h : o ∈ outputsFrom k amount height l) : height ≤ o.height := by
  induction l generalizing height with
  | nil => cases h
  | cons b l ih =>
    rw [outputsFrom, List.mem_append, List.mem_map] at h
    rcases h with ⟨stored, -, rfl⟩ | h
    · exact le_refl height
    · exact (Nat.le_succ height).trans (ih h)

theorem pairwise_height_outputsFrom (amount : UInt64) (height : ℕ) (l : List StoredBlock) :
    (outputsFrom k amount height l).Pairwise (·.height ≤ ·.height) := by
  induction l generalizing height with
  | nil => exact .nil
  | cons b l ih =>
    rw [outputsFrom, List.pairwise_append]
    refine ⟨?_, ih (height + 1), ?_⟩
    · rw [List.pairwise_map]
      exact List.pairwise_of_forall fun o o' => le_refl height
    · intro o ho o' ho'
      obtain ⟨stored, -, rfl⟩ := List.mem_map.mp ho
      exact (Nat.le_succ height).trans (le_height_of_mem_outputsFrom ho')

theorem height_le_of_index_le {amount i j : UInt64} {o o' : OutputData} (hij : i.toNat ≤ j.toNat)
    (ho : getOutputKey k s amount i = some o) (ho' : getOutputKey k s amount j = some o') :
    o.height ≤ o'.height := by
  obtain ⟨hi, rfl⟩ := List.getElem?_eq_some_iff.mp ho
  obtain ⟨hj, rfl⟩ := List.getElem?_eq_some_iff.mp ho'
  rcases Nat.lt_or_eq_of_le hij with hlt | heq
  · exact List.pairwise_iff_getElem.mp (pairwise_height_outputsFrom amount 0 s.blocks) _ _ hi hj hlt
  · simp only [heq, le_refl]

theorem RingOk.last {txin : TxinToKey} {members : List OutputData} (h : RingOk k s now hfVersion txin members) :
    ∃ i o, i.toNat = offsetSum txin.keyOffsets % 2 ^ 64 ∧ getOutputKey k s txin.amount i = some o ∧
      lastHeight members = o.height := by
  have hne : ring txin ≠ [] := by
    rw [ne_eq, ← List.length_eq_zero_iff, ring, length_relativeOutputOffsetsToAbsolute, List.length_eq_zero_iff]
    exact h.nonempty
  have hlast := congrArg List.getLast? h.members_eq
  rw [List.getLast?_map, List.getLast?_map, List.getLast?_eq_some_getLast hne, Option.map_some] at hlast
  obtain ⟨o, ho, hsome⟩ := Option.map_eq_some_iff.mp hlast.symm
  refine ⟨_, o, toNat_getLast_absolute (List.getLast?_eq_some_getLast hne), hsome.symm, ?_⟩
  rw [lastHeight, ho, Option.map_some, Option.getD_some]

theorem exists_inputOk {vin : List Txin} {rings : List (List OutputData)} {txin : TxinToKey}
    (h : List.Forall₂ (InputOk k s now hfVersion) vin rings) (hmem : .toKey txin ∈ vin) :
    ∃ members ∈ rings, RingOk k s now hfVersion txin members := by
  induction h with
  | nil => cases hmem
  | cons hi _ ih =>
    rcases List.mem_cons.mp hmem with rfl | hmem
    · obtain ⟨txin', heq, hring⟩ := hi
      cases heq
      exact ⟨_, List.mem_cons_self, hring⟩
    · obtain ⟨members, hmembers, hring⟩ := ih hmem
      exact ⟨members, List.mem_cons_of_mem _ hmembers, hring⟩

theorem Accepted.consistent {ops : List ChainOp} {tx : Transaction}
    (h : Accepted k v ops now hfVersion tx validId) : Consistent k v (chainAfter k v ops) tx :=
  (scanTableSound_chainAfter ops).consistent (nodup_kImage_of_checkTxSemantic k h.semantic) h.binding

theorem Accepted.rings {ops : List ChainOp} {tx : Transaction}
    (h : Accepted k v ops now hfVersion tx validId) (hrct : RctInputs tx) (hhf : 15 ≤ hfVersion) :
    ∃ rings id, List.Forall₂ (InputOk k (chainAfter k v ops) now hfVersion) tx.vin rings ∧
      maxUsedBlockHeight 0 rings + cryptonoteDefaultTxSpendableAge ≤ (chainAfter k v ops).height ∧
        verifyIns v tx (rings.map (List.map OutputData.ctKey)) validId = .ok id := by
  obtain ⟨r, hr⟩ := h.inputs
  obtain ⟨-, hmixin, -, ins, hins, hage, id, hid, -⟩ := checkTxInputs_eq_ok.mp hr
  obtain ⟨rings, hrings⟩ := inputsOk_of_checkIns h.consistent (List.Subset.refl _) hins
  have hloop := checkIns_of_inputsOk 0 0 (version_ne_one hrct hhf hmixin) h.consistent (List.Subset.refl _) hrings
  rw [hins, Except.ok.injEq] at hloop
  subst hloop
  have hfork : ¬hfVersion < 12 := UInt8.not_lt.mpr (UInt8.le_trans (by decide) hhf)
  rw [decide_eq_false hfork, Bool.false_or] at hage
  exact ⟨rings, id, hrings, of_decide_eq_true hage, hid⟩

theorem ringsOld_of_offsetsInOrder {ops : List ChainOp} {tx : Transaction}
    (h : Accepted k v ops now hfVersion tx validId) (hrct : RctInputs tx) (hhf : 15 ≤ hfVersion)
    (horder : OffsetsInOrder tx) : RingsOld k (chainAfter k v ops) tx := by
  obtain ⟨rings, id, hrings, hage, -⟩ := h.rings hrct hhf
  intro txin hmem a ha
  obtain ⟨n, hpos, hle, hsum⟩ := mem_absolute_iff.mp ha
  obtain ⟨txin', hmem', hbelow⟩ := (horder txin hmem).2 n hpos hle
  obtain ⟨members, -, hring⟩ := exists_inputOk hrings (mem_toKeyInputs.mp hmem)
  obtain ⟨members', hmembers', hring'⟩ := exists_inputOk hrings (mem_toKeyInputs.mp hmem')
  obtain ⟨o, -, ho⟩ := exists_of_map_eq hring.members_eq ha
  obtain ⟨i, last, hi, hlast, hheight⟩ := hring'.last
  rw [hrct.amount_eq hmem] at ho ⊢
  rw [hrct.amount_eq hmem'] at hlast
  refine ⟨o, ho, ?_⟩
  have hold : o.height ≤ last.height := height_le_of_index_le (by rw [hsum, hi]; exact hbelow) ho hlast
  have hmax := lastHeight_le_maxUsedBlockHeight 0 hmembers'
  omega

def relocated (k : CurveFunctions) (s : TxChain) (index : ℕ) : List StoredBlock :=
  let outputs := (outputsFrom k 0 0 s.blocks).map fun o =>
    { amount := 0, pubkey := o.pubkey, unlockTime := 0, commitment := o.commitment : StoredOutput }
  { outputs := outputs.take index, keyImages := [] } ::
    (List.replicate 9 { outputs := [], keyImages := [] } ++ [{ outputs := outputs.drop index, keyImages := [] }])

def relocate (index : ℕ) (i : UInt64) (o : OutputData) : OutputData :=
  { o with unlockTime := 0, height := if i.toNat < index then 0 else 10 }

theorem chainAfter_addBlocks (blocks : List StoredBlock) :
    chainAfter k v (blocks.map .addBlock) = { blocks := blocks, scanTable := ∅ } := by
  induction blocks using List.reverseRecOn with
  | nil => rfl
  | append_singleton blocks b ih =>
    rw [chainAfter] at ih
    rw [chainAfter, List.map_append, List.map_singleton, List.foldl_concat, ih, applyOp]

theorem outputsFrom_empty (amount : UInt64) (height n : ℕ) :
    outputsFrom k amount height (List.replicate n { outputs := [], keyImages := [] }) = [] := by
  induction n generalizing height with
  | zero => rfl
  | succ n ih =>
    rw [List.replicate_succ, outputsFrom, ih]
    rfl

theorem outputsFrom_relocated (s : TxChain) (index : ℕ) :
    outputsFrom k 0 0 (relocated k s index) =
      ((outputsFrom k 0 0 s.blocks).take index).map (fun o => { o with unlockTime := 0, height := 0 }) ++
        ((outputsFrom k 0 0 s.blocks).drop index).map (fun o => { o with unlockTime := 0, height := 10 }) := by
  rw [relocated, outputsFrom, outputsFrom_append, outputsFrom_empty, List.length_replicate, outputsFrom, outputsFrom]
  simp [← List.map_take, ← List.map_drop, StoredOutput.data, Function.comp_def, List.filter_map]

theorem getOutputKey_relocated (s : TxChain) (index : ℕ) (i : UInt64) :
    getOutputKey k { blocks := relocated k s index, scanTable := ∅ } 0 i =
      (getOutputKey k s 0 i).map (relocate index i) := by
  rw [getOutputKey, getOutputKey, outputsFrom_relocated]
  generalize outputsFrom k 0 0 s.blocks = l
  by_cases hi : i.toNat < index
  · have hrelocate : relocate index i = fun o => { o with unlockTime := 0, height := 0 } := by
      funext o
      rw [relocate, if_pos hi]
    rcases Nat.lt_or_ge i.toNat l.length with hlt | hge
    · rw [List.getElem?_append_left (by rw [List.length_map, List.length_take]; omega), List.getElem?_map,
        List.getElem?_take_of_lt hi, hrelocate]
    · rw [List.take_of_length_le (by omega), List.drop_eq_nil_of_le (by omega), List.map_nil, List.append_nil,
        List.getElem?_map, hrelocate]
  · have hrelocate : relocate index i = fun o => { o with unlockTime := 0, height := 10 } := by
      funext o
      rw [relocate, if_neg hi]
    rw [List.getElem?_append_right (by rw [List.length_map, List.length_take]; omega), List.getElem?_map,
      List.getElem?_drop, hrelocate, List.length_map, List.length_take]
    rcases Nat.le_total index l.length with hle | hle
    · rw [Nat.min_eq_left hle, Nat.add_sub_cancel' (by omega)]
    · rw [List.getElem?_eq_none (by omega), List.getElem?_eq_none (by omega)]

theorem height_relocated (s : TxChain) (index : ℕ) :
    TxChain.height { blocks := relocated k s index, scanTable := ∅ } = 11 := rfl

theorem RingOk.relocated {txin : TxinToKey} {members : List OutputData} {index : ℕ}
    (h : RingOk k s now hfVersion txin members) (hamount : txin.amount = 0)
    (hlast : offsetSum txin.keyOffsets % 2 ^ 64 < index) :
    ∃ members', RingOk k { blocks := relocated k s index, scanTable := ∅ } now hfVersion txin members' ∧
      members'.map OutputData.ctKey = members.map OutputData.ctKey ∧ lastHeight members' = 0 := by
  have hlookup := fun i => getOutputKey_relocated (k := k) s index i
  have hold := h.members_eq
  rw [hamount] at hold
  have hexists : ∀ i ∈ ring txin, ∃ o,
      getOutputKey k { blocks := Core.relocated k s index, scanTable := ∅ } 0 i = some o := by
    intro i hi
    obtain ⟨o, -, ho⟩ := exists_of_map_eq hold hi
    exact ⟨relocate index i o, by rw [hlookup, ho, Option.map_some]⟩
  obtain ⟨members', hmembers'⟩ := exists_map_eq hexists
  have hring : RingOk k { blocks := Core.relocated k s index, scanTable := ∅ } now hfVersion txin members' := by
    refine ⟨h.nonempty, ?_, by rw [hamount, hmembers'], ?_⟩
    · simp [haveTxKeyimgAsSpent, Core.relocated]
    · intro o' ho'
      obtain ⟨i, -, hi⟩ := mem_of_map_eq hmembers' ho'
      rw [hlookup] at hi
      obtain ⟨o, -, rfl⟩ := Option.map_eq_some_iff.mp hi
      have hzero : (relocate index i o).unlockTime = 0 := rfl
      rw [hzero, isTxSpendtimeUnlocked, if_pos (by decide)]
      exact decide_eq_true (Nat.zero_le _)
  refine ⟨members', hring, ?_, ?_⟩
  · apply map_eq_of_map_eq _ hmembers' hold
    intro i
    rw [hlookup, Option.map_map]
    rfl
  · obtain ⟨i, o', hi, ho', hheight⟩ := hring.last
    rw [hamount, hlookup] at ho'
    obtain ⟨o, -, rfl⟩ := Option.map_eq_some_iff.mp ho'
    rw [hheight, relocate, if_pos (by rw [hi]; exact hlast)]

theorem inputsOk_relocated {tx : Transaction} {index : ℕ} (hrct : RctInputs tx)
    (hlast : ∀ txin ∈ toKeyInputs tx, offsetSum txin.keyOffsets % 2 ^ 64 < index) {vin : List Txin}
    {rings : List (List OutputData)} (hsub : vin ⊆ tx.vin)
    (h : List.Forall₂ (InputOk k s now hfVersion) vin rings) :
    ∃ rings', List.Forall₂ (InputOk k { blocks := relocated k s index, scanTable := ∅ } now hfVersion) vin rings' ∧
      rings'.map (List.map OutputData.ctKey) = rings.map (List.map OutputData.ctKey) ∧
        ∀ members ∈ rings', lastHeight members = 0 := by
  induction h with
  | nil => exact ⟨[], .nil, rfl, fun members hmem => absurd hmem List.not_mem_nil⟩
  | @cons i members vin rings hi _ ih =>
    obtain ⟨txin, rfl, hring⟩ := hi
    have htxin : txin ∈ toKeyInputs tx := mem_toKeyInputs.mpr (hsub List.mem_cons_self)
    obtain ⟨members', hring', hkeys, hzero⟩ := hring.relocated (hrct.amount_eq htxin) (hlast txin htxin)
    obtain ⟨rings', hrings', hkeys', hzero'⟩ := ih fun j hj => hsub (List.mem_cons_of_mem _ hj)
    refine ⟨members' :: rings', .cons ⟨txin, rfl, hring'⟩ hrings', by rw [List.map_cons, List.map_cons, hkeys, hkeys'], ?_⟩
    intro members'' hmem
    rcases List.mem_cons.mp hmem with rfl | hmem
    · exact hzero
    · exact hzero' members'' hmem

theorem Accepted.relocated {ops : List ChainOp} {tx : Transaction} {index : ℕ}
    (h : Accepted k v ops now hfVersion tx validId) (hrct : RctInputs tx) (hhf : 15 ≤ hfVersion)
    (hlast : ∀ txin ∈ toKeyInputs tx, offsetSum txin.keyOffsets % 2 ^ 64 < index) :
    Accepted k v ((relocated k (chainAfter k v ops) index).map .addBlock) now hfVersion tx validId := by
  obtain ⟨rings, id, hrings, -, hid⟩ := h.rings hrct hhf
  obtain ⟨rings', hrings', hkeys, hzero⟩ := inputsOk_relocated hrct hlast (List.Subset.refl _) hrings
  obtain ⟨r, hr⟩ := h.inputs
  obtain ⟨houts, hmixin, hsorted, -⟩ := checkTxInputs_eq_ok.mp hr
  have hprepared : ((Core.relocated k (chainAfter k v ops) index).map ChainOp.addBlock).flatMap ChainOp.prepared = [] := by
    rw [List.flatMap_map]
    exact List.flatMap_eq_nil_iff.mpr fun b _ => rfl
  refine ⟨by rw [hprepared]; exact fun tx' hmem => absurd hmem List.not_mem_nil, h.semantic, ?_⟩
  rw [chainAfter_addBlocks]
  set s' : TxChain := { blocks := Core.relocated k (chainAfter k v ops) index, scanTable := ∅ }
  have hcons : Consistent k v s' tx := fun txin _ outputs hfind => by cases hfind
  have hloop := checkIns_of_inputsOk 0 0 (version_ne_one hrct hhf hmixin) hcons (List.Subset.refl _) hrings'
  refine ⟨(id, maxUsedBlockHeight 0 rings'), checkTxInputs_eq_ok.mpr
    ⟨houts, by rwa [checkMixin_eq hrct s' (chainAfter k v ops)], hsorted, _, hloop, ?_, id, by rwa [hkeys], rfl⟩⟩
  have hmax : maxUsedBlockHeight 0 rings' ≤ 0 := maxUsedBlockHeight_le (le_refl 0) fun m hm => (hzero m hm).le
  rw [Bool.or_eq_true]
  right
  rw [decide_eq_true_iff, height_relocated, cryptonoteDefaultTxSpendableAge]
  omega

theorem offsets_le_of_ringLaw {ops : List ChainOp} {tx : Transaction}
    (h : Accepted k v ops now hfVersion tx validId) (hrct : RctInputs tx) (hhf : 15 ≤ hfVersion)
    (hlaw : RingLaw k v hfVersion tx) {txin : TxinToKey} (hmem : txin ∈ toKeyInputs tx) {n : ℕ} (hpos : 0 < n)
    (hle : n ≤ txin.keyOffsets.length) :
    ∃ txin' ∈ toKeyInputs tx,
      offsetSum (txin.keyOffsets.take n) % 2 ^ 64 ≤ offsetSum txin'.keyOffsets % 2 ^ 64 := by
  by_contra hnone
  push Not at hnone
  -- the member at this sum is put into the newest block, and all last members into the oldest
  have hacc := h.relocated hrct hhf hnone
  have hlt : offsetSum (txin.keyOffsets.take n) % 2 ^ 64 < 2 ^ 64 := Nat.mod_lt _ (by norm_num)
  have hmember : UInt64.ofNat (offsetSum (txin.keyOffsets.take n) % 2 ^ 64) ∈ ring txin :=
    mem_absolute_iff.mpr ⟨n, hpos, hle, UInt64.toNat_ofNat_of_lt' hlt⟩
  obtain ⟨o, ho, hold⟩ := (hlaw _ _ _ hacc).2 txin hmem _ hmember
  rw [chainAfter_addBlocks] at ho
  rw [chainAfter_addBlocks, height_relocated] at hold
  rw [hrct.amount_eq hmem, getOutputKey_relocated] at ho
  obtain ⟨o', -, rfl⟩ := Option.map_eq_some_iff.mp ho
  rw [relocate, UInt64.toNat_ofNat_of_lt' hlt, if_neg (Nat.lt_irrefl _)] at hold
  have hten : 10 + cryptonoteDefaultTxSpendableAge ≤ 11 := hold
  exact absurd hten (by decide)

theorem ringLaw_iff (k : CurveFunctions) (v : InputVerifier) (hfVersion : UInt8) (tx : Transaction) :
    (RctInputs tx → 15 ≤ hfVersion → RingLaw k v hfVersion tx) ↔
      (RctInputs tx → 15 ≤ hfVersion → (∃ ops now validId, Accepted k v ops now hfVersion tx validId) →
        OffsetsInOrder tx) := by
  constructor
  · rintro hlaw hrct hhf ⟨ops, now, validId, hacc⟩ txin hmem
    have hlaw := hlaw hrct hhf
    refine ⟨(nodup_absolute_iff _).mp ((hlaw ops now validId hacc).1 txin hmem), ?_⟩
    intro n hpos hle
    exact offsets_le_of_ringLaw hacc hrct hhf hlaw hmem hpos hle
  · intro horder hrct hhf ops now validId hacc
    have horder := horder hrct hhf ⟨ops, now, validId, hacc⟩
    refine ⟨fun txin hmem => (nodup_absolute_iff _).mpr (horder txin hmem).1, ?_⟩
    exact ringsOld_of_offsetsInOrder hacc hrct hhf horder

namespace Rewound

def curve : CurveFunctions where
  checkKey := fun _ => true
  scalarmultKey := fun _ _ => identity
  zeroCommit := fun _ => Blob.zero 32

def verifier : InputVerifier where
  getTransactionPrefixHash := fun _ => nullHash
  getTransactionHash := fun _ => nullHash
  makeInputVerificationId := fun _ _ => nullHash
  verInputProofsRings := fun _ _ => true

def txin : TxinToKey where
  amount := 0
  keyOffsets := [20, 0xFFFFFFFFFFFFFFEF, 17, 0xFFFFFFFFFFFFFFF0] ++ List.replicate 12 1
  kImage := Blob.zero 32

def tx : Transaction where
  version := 2
  unlockTime := 0
  vin := [.toKey txin]
  vout := List.replicate 2 { amount := 0, target := .toTaggedKey (Blob.zero 32) (Blob.zero 1) }
  extra := []
  signatures := []
  rctSignatures := { (default : RctSig) with outPk := List.replicate 2 { dest := Blob.zero 32, mask := Blob.zero 32 } }
  pruned := false

def output : StoredOutput := { amount := 0, pubkey := Blob.zero 32, unlockTime := 0, commitment := Blob.zero 32 }

def ops : List ChainOp :=
  [.addBlock { outputs := List.replicate 20 output, keyImages := [] }] ++
    List.replicate 9 (.addBlock { outputs := [], keyImages := [] }) ++
      [.addBlock { outputs := [output], keyImages := [] }]

theorem accepted_repeated_young : RctInputs tx ∧ Accepted curve verifier ops 0 16 tx nullHash ∧
    ¬(ring txin).Nodup ∧ 20 ∈ ring txin ∧
      (getOutputKey curve (chainAfter curve verifier ops) 0 20).map OutputData.height = some 10 ∧
        (chainAfter curve verifier ops).height = 11 := by
  refine ⟨?_, ⟨?_, rfl, (nullHash, 0), rfl⟩, by decide, by decide, rfl, rfl⟩
  · intro i hi
    obtain rfl := List.mem_singleton.mp hi
    exact ⟨txin, rfl, rfl⟩
  · intro tx' hmem
    exact absurd hmem List.not_mem_nil

end Rewound

end Velkavo.Core
