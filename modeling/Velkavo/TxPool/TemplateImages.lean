import Velkavo.Effects.Runs
import Velkavo.TxPool.FillTemplate

namespace Velkavo.TxPool

open Cryptonote ByteCodec BlockchainDb Velkavo.Core Rct

structure ReadyState where
  scalarmultInvEight : Key → Key
  alreadyFailed : Hash → Bool
  inputCache : UnorderedMap Hash Bool
  checkTxInputs : Transaction → Bool

/-- The inputs of the object that the caller looks at afterwards. A result from the cache leaves it as it was constructed,
without inputs; a blob that is not a transaction throws. -/
def ReadyState.isTransactionReadyToGo (x : ReadyState) (txid : Hash) (row : PoolRow) : Option (List Txin) :=
  if x.alreadyFailed txid then none
  else
    match x.inputCache.find? txid with
    | some result => if result then some [] else none
    | none => (parseAndValidateTxFromBlob x.scalarmultInvEight row.blob).bind fun tx =>
      if x.checkTxInputs tx then some tx.vin else none

def ReadyState.fillFunctions (x : ReadyState) (mineStemTxes : Bool) (templateAcceptThreshold : UInt64 → UInt64) :
    FillFunctions := ⟨mineStemTxes, x.isTransactionReadyToGo, templateAcceptThreshold⟩

namespace TxMemoryPool

variable (p : TxMemoryPool) (f : FillFunctions) (median coins : UInt64) (version : UInt8)

def admits (t : FilledTemplate) (row : PoolRow) : Option UInt64 :=
  let weight := t.totalWeight + UInt64.ofNat row.txMeta.weight
  if notMined f row then none
  else if maxTotalWeight median version < weight then none
  else (getBlockReward median weight coins version).bind fun blockReward =>
    let coinbase := blockReward + t.fee + row.txMeta.fee
    if coinbase < f.templateAcceptThreshold t.bestCoinbase then none else some coinbase

def candidate (t : FilledTemplate) (it : SortedTx) : Option (PoolRow × UInt64) :=
  (p.table.find? it.txid).bind fun row => (admits f median coins version t row).map fun coinbase => (row, coinbase)

def fillStep (t : FilledTemplate) (it : SortedTx) : FilledTemplate :=
  match p.candidate f median coins version t it with
  | none => t
  | some (row, coinbase) => t.consider f.ready it.txid row coinbase

variable {p f median coins version}

theorem fillLoop_eq_foldl (hversion : 5 ≤ version) (l : List SortedTx) (t : FilledTemplate) :
    p.fillLoop f median coins version l t = l.foldl (p.fillStep f median coins version) t := by
  induction l generalizing t with
  | nil => rfl
  | cons it rest ih =>
    rw [fillLoop, List.foldl_cons, ← ih, fillStep, candidate]
    cases p.table.find? it.txid with
    | none => rfl
    | some row =>
      dsimp only [Option.bind_some]
      rw [admits]
      dsimp only
      by_cases hmined : notMined f row = true
      · rw [if_pos hmined, if_pos hmined]
        rfl
      rw [if_neg hmined, if_neg hmined]
      by_cases hweight : maxTotalWeight median version < t.totalWeight + UInt64.ofNat row.txMeta.weight
      · rw [if_pos hweight, if_pos hweight]
        rfl
      rw [if_neg hweight, if_neg hweight, if_pos hversion]
      cases getBlockReward median (t.totalWeight + UInt64.ofNat row.txMeta.weight) coins version with
      | none => rfl
      | some blockReward =>
        dsimp only [Option.bind_some]
        by_cases hless : blockReward + t.fee + row.txMeta.fee < f.templateAcceptThreshold t.bestCoinbase
        · rw [if_pos hless, if_pos hless]
          rfl
        · rw [if_neg hless, if_neg hless]
          rfl

theorem admits_eq_some {t : FilledTemplate} {row : PoolRow} {coinbase : UInt64}
    (h : admits f median coins version t row = some coinbase) :
    t.totalWeight + UInt64.ofNat row.txMeta.weight ≤ maxTotalWeight median version ∧
    ∃ reward, getBlockReward median (t.totalWeight + UInt64.ofNat row.txMeta.weight) coins version = some reward ∧
      coinbase = reward + (t.fee + row.txMeta.fee) ∧ f.templateAcceptThreshold t.bestCoinbase ≤ coinbase := by
  rw [admits] at h
  dsimp only at h
  split at h
  · cases h
  split at h
  · cases h
  next hweight =>
    obtain ⟨reward, hreward, hcoinbase⟩ := Option.bind_eq_some_iff.mp h
    split at hcoinbase
    · cases hcoinbase
    next hless =>
      cases hcoinbase
      exact ⟨UInt64.not_lt.mp hweight, reward, hreward, UInt64.add_assoc .., UInt64.not_lt.mp hless⟩

theorem candidate_eq_some {t : FilledTemplate} {it : SortedTx} {row : PoolRow} {coinbase : UInt64}
    (h : p.candidate f median coins version t it = some (row, coinbase)) :
    p.table.find? it.txid = some row ∧ admits f median coins version t row = some coinbase := by
  obtain ⟨row', hrow, hadmits⟩ := Option.bind_eq_some_iff.mp h
  obtain ⟨coinbase', hcoinbase, heq⟩ := Option.map_eq_some_iff.mp hadmits
  cases heq
  exact ⟨hrow, hcoinbase⟩

theorem fillStep_cases (t : FilledTemplate) (it : SortedTx) : p.fillStep f median coins version t it = t ∨
    ∃ row coinbase vin, p.candidate f median coins version t it = some (row, coinbase) ∧
      f.ready it.txid row = some vin ∧ haveKeyImages t.kImages vin = false ∧
      p.fillStep f median coins version t it = ⟨t.txHashes ++ [it.txid], t.totalWeight + UInt64.ofNat row.txMeta.weight,
        t.fee + row.txMeta.fee, coinbase, appendKeyImages t.kImages vin⟩ := by
  rw [fillStep]
  cases hcandidate : p.candidate f median coins version t it with
  | none => exact .inl rfl
  | some x =>
    obtain ⟨row, coinbase⟩ := x
    dsimp only
    rw [FilledTemplate.consider]
    cases hready : f.ready it.txid row with
    | none => exact .inl rfl
    | some vin =>
      dsimp only
      cases hhave : haveKeyImages t.kImages vin with
      | true => exact .inl (if_pos rfl)
      | false => exact .inr ⟨row, coinbase, vin, rfl, hready, hhave, if_neg Bool.false_ne_true⟩

def weightOf (p : TxMemoryPool) (id : Hash) : ℕ := ((p.table.find? id).map fun row => row.txMeta.weight).getD 0

def feeOf (p : TxMemoryPool) (id : Hash) : ℕ := ((p.table.find? id).map fun row => row.txMeta.fee.toNat).getD 0

structure Filled (p : TxMemoryPool) (median coins : UInt64) (version : UInt8) (t : FilledTemplate) : Prop where
  weight : t.totalWeight = UInt64.ofNat (t.txHashes.map p.weightOf).sum
  fee : t.fee = UInt64.ofNat (t.txHashes.map p.feeOf).sum
  weight_le : t.totalWeight ≤ maxTotalWeight median version
  reward : ∃ reward, getBlockReward median t.totalWeight coins version = some reward ∧ t.bestCoinbase = reward + t.fee

theorem Filled.step {t : FilledTemplate} (h : p.Filled median coins version t) (it : SortedTx) :
    p.Filled median coins version (p.fillStep f median coins version t it) := by
  rcases fillStep_cases t it with hsame | ⟨row, coinbase, vin, hcandidate, -, -, htaken⟩
  · rw [hsame]
    exact h
  · rw [htaken]
    obtain ⟨hrow, hadmits⟩ := candidate_eq_some hcandidate
    obtain ⟨hle, reward, hreward, hcoinbase, -⟩ := admits_eq_some hadmits
    have hweightOf : p.weightOf it.txid = row.txMeta.weight := by
      rw [weightOf, hrow]
      rfl
    have hfeeOf : p.feeOf it.txid = row.txMeta.fee.toNat := by
      rw [feeOf, hrow]
      rfl
    refine ⟨?_, ?_, hle, reward, hreward, hcoinbase⟩
    · rw [h.weight, List.map_append, List.sum_append, List.map_singleton, List.sum_singleton, hweightOf, UInt64.ofNat_add]
    · rw [h.fee, List.map_append, List.sum_append, List.map_singleton, List.sum_singleton, hfeeOf, UInt64.ofNat_add,
        UInt64.ofNat_toNat]

end TxMemoryPool

section

variable {kImages : UnorderedSet KeyImage} {vin : List Txin}

theorem haveKeyImages_iff (htoKey : ∀ txin ∈ vin, (keyImage? txin).isSome) :
    haveKeyImages kImages vin = true ↔ ∃ image ∈ keyImages vin, image ∈ kImages := by
  induction vin with
  | nil => simp [haveKeyImages, keyImages]
  | cons txin vin ih =>
    obtain ⟨image, himage⟩ := Option.isSome_iff_exists.mp (htoKey txin List.mem_cons_self)
    rw [haveKeyImages, himage, keyImages_cons_some himage, Bool.or_eq_true, decide_eq_true_iff,
      ih fun txin' hmem => htoKey txin' (List.mem_cons_of_mem _ hmem), List.exists_mem_cons_iff]

theorem mem_appendKeyImages (htoKey : ∀ txin ∈ vin, (keyImage? txin).isSome) (hnodup : (keyImages vin).Nodup)
    (hnew : ∀ image ∈ keyImages vin, image ∉ kImages) {image : KeyImage} :
    image ∈ appendKeyImages kImages vin ↔ image ∈ keyImages vin ∨ image ∈ kImages := by
  induction vin generalizing kImages with
  | nil => simp [appendKeyImages, keyImages]
  | cons txin vin ih =>
    obtain ⟨first, hfirst⟩ := Option.isSome_iff_exists.mp (htoKey txin List.mem_cons_self)
    rw [keyImages_cons_some hfirst] at hnodup hnew ⊢
    rw [List.nodup_cons] at hnodup
    have hnew' : ∀ image ∈ keyImages vin, image ∉ kImages.insert first := by
      intro image himage hmem
      rcases UnorderedSet.mem_insert.mp hmem with rfl | hmem
      · exact hnodup.1 himage
      · exact hnew image (List.mem_cons_of_mem _ himage) hmem
    rw [appendKeyImages, hfirst]
    dsimp only
    rw [if_neg (hnew first List.mem_cons_self), ih (fun txin' hmem => htoKey txin' (List.mem_cons_of_mem _ hmem)) hnodup.2 hnew',
      UnorderedSet.mem_insert, List.mem_cons, or_left_comm, or_assoc]

def clash (r : TxFacts) (a b : Hash) : Bool := (keyImages (r.vin a)).any fun image => decide (image ∈ keyImages (r.vin b))

theorem clash_iff {r : TxFacts} {a b : Hash} :
    clash r a b = true ↔ ∃ image ∈ keyImages (r.vin a), image ∈ keyImages (r.vin b) := by
  simp only [clash, List.any_eq_true, decide_eq_true_iff]

end

namespace TxMemoryPool

section

variable (p : TxMemoryPool) (f : FillFunctions) (r : TxFacts) (median coins : UInt64) (version : UInt8)

def WasParsed (id : Hash) : Prop := ∃ row vin, p.table.find? id = some row ∧ f.ready id row = some vin ∧ vin ≠ []

def disjointStep (t : FilledTemplate) (it : SortedTx) : FilledTemplate :=
  match p.candidate f median coins version t it with
  | none => t
  | some (row, coinbase) =>
    if (f.ready it.txid row).isSome && !t.txHashes.any (clash r · it.txid) then
      { t with
        txHashes := t.txHashes ++ [it.txid]
        totalWeight := t.totalWeight + UInt64.ofNat row.txMeta.weight
        fee := t.fee + row.txMeta.fee
        bestCoinbase := coinbase }
    else t

def ClashesParsed : FilledTemplate → List SortedTx → Prop
  | _, [] => True
  | t, it :: rest =>
    (∀ row coinbase vin, p.candidate f median coins version t it = some (row, coinbase) →
      f.ready it.txid row = some vin → t.txHashes.any (clash r · it.txid) = true →
      vin ≠ [] ∧ ∃ id ∈ t.txHashes, p.WasParsed f id ∧ clash r id it.txid = true) ∧
    ClashesParsed (p.disjointStep f r median coins version t it) rest

structure Follows (t t' : FilledTemplate) : Prop where
  txHashes : t.txHashes = t'.txHashes
  totalWeight : t.totalWeight = t'.totalWeight
  fee : t.fee = t'.fee
  bestCoinbase : t.bestCoinbase = t'.bestCoinbase
  kImages : ∀ image, image ∈ t.kImages ↔ ∃ id ∈ t.txHashes, p.WasParsed f id ∧ image ∈ keyImages (r.vin id)

def GivesInputs : Prop :=
  ∀ id row, p.table.find? id = some row → Spendable (r.vin id) ∧ ∀ vin, f.ready id row = some vin → vin = r.vin id ∨ vin = []

end

variable {p : TxMemoryPool} {f : FillFunctions} {r : TxFacts} {median coins : UInt64} {version : UInt8}
  {t t' : FilledTemplate}

theorem Follows.candidate_eq (h : p.Follows f r t t') (it : SortedTx) :
    p.candidate f median coins version t it = p.candidate f median coins version t' it := by
  simp only [candidate, admits, h.totalWeight, h.fee, h.bestCoinbase]

theorem txHashes_prefix_foldl (l : List SortedTx) (t : FilledTemplate) :
    t.txHashes <+: (l.foldl (p.fillStep f median coins version) t).txHashes := by
  induction l generalizing t with
  | nil => exact List.prefix_refl _
  | cons it rest ih =>
    rw [List.foldl_cons]
    refine List.IsPrefix.trans ?_ (ih _)
    rcases fillStep_cases t it with hsame | ⟨row, coinbase, vin, -, -, -, htaken⟩
    · rw [hsame]
    · rw [htaken]
      exact List.prefix_append _ _

theorem pairwise_concat {l : List Hash} {id : Hash} (h : l.Pairwise fun a b => clash r a b = false)
    (hid : l.any (clash r · id) = false) : (l ++ [id]).Pairwise fun a b => clash r a b = false := by
  rw [List.any_eq_false] at hid
  refine List.pairwise_append.mpr ⟨h, List.pairwise_singleton _ _, fun a ha b hb => ?_⟩
  rw [List.mem_singleton.mp hb]
  exact Bool.eq_false_iff.mpr (hid a ha)

theorem Follows.taken (h : p.Follows f r t t') (hgives : p.GivesInputs f r) {it : SortedTx} {row : PoolRow}
    {coinbase : UInt64} {vin : List Txin} (hcandidate : p.candidate f median coins version t it = some (row, coinbase))
    (hready : f.ready it.txid row = some vin) (hclash : t.txHashes.any (clash r · it.txid) = false) :
    p.Follows f r (p.fillStep f median coins version t it) (p.disjointStep f r median coins version t' it) ∧
    (p.fillStep f median coins version t it).txHashes = t.txHashes ++ [it.txid] := by
  obtain ⟨hrow, -⟩ := candidate_eq_some hcandidate
  obtain ⟨hspendable, hvin⟩ := hgives it.txid row hrow
  -- the images that were recorded are images of taken transactions
  have hnew : ∀ image ∈ keyImages (r.vin it.txid), image ∉ t.kImages := by
    intro image himage hmem
    obtain ⟨id, hid, -, himage'⟩ := (h.kImages image).mp hmem
    exact (List.any_eq_false.mp hclash id hid) (clash_iff.mpr ⟨image, himage', himage⟩)
  have hhave : haveKeyImages t.kImages vin = false := by
    rcases hvin vin hready with rfl | rfl
    · refine Bool.eq_false_iff.mpr fun htrue => ?_
      obtain ⟨image, himage, hmem⟩ := (haveKeyImages_iff hspendable.toKey).mp htrue
      exact hnew image himage hmem
    · rfl
  have hstep : p.fillStep f median coins version t it = ⟨t.txHashes ++ [it.txid],
      t.totalWeight + UInt64.ofNat row.txMeta.weight, t.fee + row.txMeta.fee, coinbase, appendKeyImages t.kImages vin⟩ := by
    rw [fillStep, hcandidate]
    dsimp only
    rw [FilledTemplate.consider, hready]
    exact if_neg (by simp [hhave])
  have hstep' : p.disjointStep f r median coins version t' it = { t' with
      txHashes := t'.txHashes ++ [it.txid]
      totalWeight := t'.totalWeight + UInt64.ofNat row.txMeta.weight
      fee := t'.fee + row.txMeta.fee
      bestCoinbase := coinbase } := by
    rw [disjointStep, ← h.candidate_eq, hcandidate]
    exact if_pos (by rw [hready, ← h.txHashes, hclash]; rfl)
  refine ⟨?_, by rw [hstep]⟩
  rw [hstep, hstep']
  refine ⟨by rw [h.txHashes], by rw [h.totalWeight], by rw [h.fee], rfl, fun image => ?_⟩
  have hsplit : (∃ id ∈ t.txHashes ++ [it.txid], p.WasParsed f id ∧ image ∈ keyImages (r.vin id)) ↔
      image ∈ t.kImages ∨ (p.WasParsed f it.txid ∧ image ∈ keyImages (r.vin it.txid)) := by
    rw [h.kImages]
    constructor
    · rintro ⟨id, hid, himage⟩
      rcases List.mem_append.mp hid with hid | hid
      · exact .inl ⟨id, hid, himage⟩
      · rw [List.mem_singleton.mp hid] at himage
        exact .inr himage
    · rintro (⟨id, hid, himage⟩ | himage)
      · exact ⟨id, List.mem_append_left _ hid, himage⟩
      · exact ⟨it.txid, List.mem_append_right _ (List.mem_singleton_self _), himage⟩
  rw [hsplit]
  rcases hvin vin hready with rfl | rfl
  · have hparsed : p.WasParsed f it.txid := ⟨row, _, hrow, hready, hspendable.ne_nil⟩
    rw [mem_appendKeyImages hspendable.toKey hspendable.nodup hnew, or_comm, and_iff_right hparsed]
  · have hnot : ¬p.WasParsed f it.txid := by
      rintro ⟨row', vin', hrow', hready', hne⟩
      rw [hrow, Option.some_inj] at hrow'
      rw [← hrow', hready, Option.some_inj] at hready'
      exact hne hready'.symm
    rw [appendKeyImages]
    exact ⟨.inl, fun himage => himage.resolve_right fun hand => hnot hand.1⟩

theorem Follows.clashing (h : p.Follows f r t t') (hgives : p.GivesInputs f r) {it : SortedTx} {row : PoolRow}
    {coinbase : UInt64} {vin : List Txin} (hcandidate : p.candidate f median coins version t it = some (row, coinbase))
    (hready : f.ready it.txid row = some vin) :
    (p.fillStep f median coins version t it = t ∧
      vin ≠ [] ∧ ∃ id ∈ t.txHashes, p.WasParsed f id ∧ clash r id it.txid = true) ∨
    ((p.fillStep f median coins version t it).txHashes = t.txHashes ++ [it.txid] ∧
      ¬(vin ≠ [] ∧ ∃ id ∈ t.txHashes, p.WasParsed f id ∧ clash r id it.txid = true)) := by
  obtain ⟨hrow, -⟩ := candidate_eq_some hcandidate
  obtain ⟨hspendable, hvin⟩ := hgives it.txid row hrow
  have hiff : haveKeyImages t.kImages vin = true ↔
      vin ≠ [] ∧ ∃ id ∈ t.txHashes, p.WasParsed f id ∧ clash r id it.txid = true := by
    rcases hvin vin hready with rfl | rfl
    · rw [haveKeyImages_iff hspendable.toKey, and_iff_right hspendable.ne_nil]
      constructor
      · rintro ⟨image, himage, hmem⟩
        obtain ⟨id, hid, hparsed, himage'⟩ := (h.kImages image).mp hmem
        exact ⟨id, hid, hparsed, clash_iff.mpr ⟨image, himage', himage⟩⟩
      · rintro ⟨id, hid, hparsed, hclash⟩
        obtain ⟨image, himage, himage'⟩ := clash_iff.mp hclash
        exact ⟨image, himage', (h.kImages image).mpr ⟨id, hid, hparsed, himage⟩⟩
    · simp [haveKeyImages]
  rw [← hiff, fillStep, hcandidate]
  dsimp only
  rw [FilledTemplate.consider, hready]
  dsimp only
  by_cases hhave : haveKeyImages t.kImages vin = true
  · exact .inl ⟨if_pos hhave, hhave⟩
  · rw [if_neg hhave]
    exact .inr ⟨rfl, hhave⟩

theorem pairwise_foldl_iff (hgives : p.GivesInputs f r) (l : List SortedTx) (h : p.Follows f r t t')
    (hpairwise : t.txHashes.Pairwise fun a b => clash r a b = false) :
    ((l.foldl (p.fillStep f median coins version) t).txHashes.Pairwise fun a b => clash r a b = false) ↔
      p.ClashesParsed f r median coins version t' l := by
  induction l generalizing t t' with
  | nil => exact ⟨fun _ => trivial, fun _ => hpairwise⟩
  | cons it rest ih =>
    rw [List.foldl_cons, ClashesParsed]
    cases hcandidate : p.candidate f median coins version t it with
    | none =>
      have hcandidate' := h.candidate_eq it ▸ hcandidate
      rw [fillStep, hcandidate, disjointStep, hcandidate']
      refine (ih h hpairwise).trans (and_iff_right fun row coinbase vin heq => ?_).symm
      cases heq
    | some x =>
      obtain ⟨row, coinbase⟩ := x
      have hcandidate' := h.candidate_eq it ▸ hcandidate
      cases hready : f.ready it.txid row with
      | none =>
        have hsame : p.fillStep f median coins version t it = t := by
          rw [fillStep, hcandidate]
          dsimp only
          rw [FilledTemplate.consider, hready]
        have hsame' : p.disjointStep f r median coins version t' it = t' := by
          rw [disjointStep, hcandidate']
          exact if_neg (by rw [hready]; simp)
        rw [hsame, hsame', hcandidate']
        refine (ih h hpairwise).trans (and_iff_right fun row' coinbase' vin heq hready' => ?_).symm
        cases heq
        rw [hready] at hready'
        cases hready'
      | some vin =>
        have hfirst : (∀ row' coinbase' vin', p.candidate f median coins version t' it = some (row', coinbase') →
            f.ready it.txid row' = some vin' → t'.txHashes.any (clash r · it.txid) = true →
            vin' ≠ [] ∧ ∃ id ∈ t'.txHashes, p.WasParsed f id ∧ clash r id it.txid = true) ↔
            (t.txHashes.any (clash r · it.txid) = true →
              vin ≠ [] ∧ ∃ id ∈ t.txHashes, p.WasParsed f id ∧ clash r id it.txid = true) := by
          rw [h.txHashes]
          constructor
          · exact fun hall => hall row coinbase vin hcandidate' hready
          · intro hone row' coinbase' vin' heq hready'
            rw [hcandidate'] at heq
            cases heq
            rw [hready] at hready'
            cases hready'
            exact hone
        rw [hfirst]
        cases hclash : t.txHashes.any (clash r · it.txid) with
        | false =>
          obtain ⟨hfollows, htxHashes⟩ := h.taken hgives hcandidate hready hclash
          refine (ih hfollows (htxHashes ▸ pairwise_concat hpairwise hclash)).trans (and_iff_right fun htrue => ?_).symm
          cases htrue
        | true =>
          rcases h.clashing hgives hcandidate hready with ⟨hsame, hparsed⟩ | ⟨htaken, hnot⟩
          · have hsame' : p.disjointStep f r median coins version t' it = t' := by
              rw [disjointStep, hcandidate']
              exact if_neg (by rw [← h.txHashes, hclash]; simp)
            rw [hsame, hsame']
            exact (ih h hpairwise).trans (and_iff_right fun _ => hparsed).symm
          · refine iff_of_false (fun hall => ?_) fun hboth => hnot (hboth.1 rfl)
            -- what was taken stays
            have hsub := hall.sublist (txHashes_prefix_foldl rest _).sublist
            rw [htaken, List.pairwise_append] at hsub
            obtain ⟨id, hid, hclash'⟩ := List.any_eq_true.mp hclash
            have hfalse := hsub.2.2 id hid it.txid (List.mem_singleton_self _)
            rw [hfalse] at hclash'
            cases hclash'

end TxMemoryPool

def FilledTemplate.baseline (bestCoinbase : UInt64) : FilledTemplate := ⟨[], 0, 0, bestCoinbase, ∅⟩

theorem ReadyState.givesInputs {x : ReadyState} {p : TxMemoryPool} {r : TxFacts} {mineStemTxes : Bool}
    {templateAcceptThreshold : UInt64 → UInt64} (hrows : ∀ id row, p.table.find? id = some row → r.Row id row) :
    p.GivesInputs (x.fillFunctions mineStemTxes templateAcceptThreshold) r := by
  intro id row hrow
  refine ⟨(hrows id row hrow).spendable, fun vin hready => ?_⟩
  have hready' : x.isTransactionReadyToGo id row = some vin := hready
  rw [isTransactionReadyToGo] at hready'
  split at hready'
  · cases hready'
  split at hready'
  · split at hready'
    · cases hready'
      exact .inr rfl
    · cases hready'
  · obtain ⟨tx, htx, hvin⟩ := Option.bind_eq_some_iff.mp hready'
    split at hvin
    · cases hvin
      obtain ⟨tx', htx', hvin'⟩ := (hrows id row hrow).blob
      rw [prefix_of_parse htx, Option.some_inj] at htx'
      rw [← hvin', ← htx']
      exact .inl rfl
    · cases hvin

theorem toNat_maxTotalWeight {median : UInt64} {version : UInt8} (hversion : 5 ≤ version) (hmedian : 300000 ≤ median) :
    (TxMemoryPool.maxTotalWeight median version).toNat ≤ 2 * median.toNat - 600 := by
  have hle : 300000 ≤ median.toNat := UInt64.le_iff_toNat_le.mp hmedian
  have hlt := median.toNat_lt
  have hreserved : cryptonoteCoinbaseBlobReservedSize.toNat = 600 := rfl
  have htwo : (2 : UInt64).toNat = 2 := rfl
  rw [TxMemoryPool.maxTotalWeight, if_pos hversion, UInt64.toNat_sub, UInt64.toNat_mul, hreserved, htwo]
  omega

theorem fill_block_template_iff (p : TxMemoryPool) (x : ReadyState) (r : TxFacts) (mineStemTxes : Bool)
    (templateAcceptThreshold : UInt64 → UInt64) (median coins : UInt64) (version : UInt8) (hversion : 5 ≤ version)
    (hmedian : 300000 ≤ median) (hrows : ∀ id row, p.table.find? id = some row → r.Row id row) {f : FillFunctions}
    (hf : f = x.fillFunctions mineStemTxes templateAcceptThreshold) :
    ∃ bestCoinbase t, getBlockReward median 0 coins version = some bestCoinbase ∧
      p.fillBlockTemplate f median coins version = some t ∧
      (((t.txHashes.Pairwise fun a b => clash r a b = false) ∧
        t.totalWeight = UInt64.ofNat (t.txHashes.map p.weightOf).sum ∧
        t.fee = UInt64.ofNat (t.txHashes.map p.feeOf).sum ∧
        t.totalWeight.toNat ≤ 2 * median.toNat - 600 ∧
        (∃ reward, getBlockReward median t.totalWeight coins version = some reward ∧ t.bestCoinbase = reward + t.fee) ∧
        ∀ done it rest before after, p.txsByFeeAndReceiveTime = done ++ it :: rest →
          before = p.fillLoop f median coins version done (.baseline bestCoinbase) →
          after = p.fillLoop f median coins version (done ++ [it]) (.baseline bestCoinbase) →
          after = before ∨ templateAcceptThreshold before.bestCoinbase ≤ after.bestCoinbase) ↔
      p.ClashesParsed f r median coins version (.baseline bestCoinbase) p.txsByFeeAndReceiveTime) := by
  have hempty : getBlockReward median 0 coins version = some (emission coins version) := by
    rw [getBlockReward]
    exact if_pos (UInt64.le_iff_toNat_le.mpr (Nat.zero_le _))
  refine ⟨emission coins version,
    p.fillLoop f median coins version p.txsByFeeAndReceiveTime (.baseline (emission coins version)), hempty, ?_, ?_⟩
  · rw [TxMemoryPool.fillBlockTemplate, hempty]
    rfl
  · have hstart : p.Filled median coins version (.baseline (emission coins version)) :=
      ⟨rfl, rfl, UInt64.le_iff_toNat_le.mpr (Nat.zero_le _), emission coins version, hempty, (UInt64.add_zero _).symm⟩
    have hfilled : p.Filled median coins version
        (p.txsByFeeAndReceiveTime.foldl (p.fillStep f median coins version) (.baseline (emission coins version))) :=
      Effects.foldl_invariant (C := fun _ _ => True) hstart (fun t it _ ht _ => ht.step it) fun _ _ _ _ => trivial
    have hfollows : p.Follows f r (.baseline (emission coins version)) (.baseline (emission coins version)) := by
      refine ⟨rfl, rfl, rfl, rfl, fun image => iff_of_false List.not_mem_nil ?_⟩
      rintro ⟨id, hid, -⟩
      exact absurd hid List.not_mem_nil
    have hgives : p.GivesInputs f r := hf ▸ ReadyState.givesInputs hrows
    rw [TxMemoryPool.fillLoop_eq_foldl hversion,
      ← TxMemoryPool.pairwise_foldl_iff hgives p.txsByFeeAndReceiveTime hfollows List.Pairwise.nil]
    refine and_iff_left ⟨hfilled.weight, hfilled.fee, ?_, hfilled.reward, ?_⟩
    · exact (UInt64.le_iff_toNat_le.mp hfilled.weight_le).trans (toNat_maxTotalWeight hversion hmedian)
    · rintro done it rest before after - hbefore hafter
      rw [TxMemoryPool.fillLoop_eq_foldl hversion] at hbefore hafter
      rw [List.foldl_append, ← hbefore] at hafter
      rcases TxMemoryPool.fillStep_cases before it with hsame | ⟨row, coinbase, vin, hcandidate, -, -, htaken⟩
      · exact .inl (hafter.trans hsame)
      · obtain ⟨-, hadmits⟩ := TxMemoryPool.candidate_eq_some hcandidate
        obtain ⟨-, -, -, -, hthreshold⟩ := TxMemoryPool.admits_eq_some hadmits
        rw [hf] at hthreshold
        rw [hafter, List.foldl_cons, List.foldl_nil, htaken]
        exact .inr hthreshold

section

def spendingInput : Txin := .toKey ⟨0, [], Blob.zero 32⟩

def spendingTx : Transaction := ⟨⟨1, 0, [spendingInput], [], []⟩, [], default, false⟩

def spendingFacts : TxFacts := ⟨fun _ => [spendingInput], fun _ => 100⟩

def spendingBlob : Bytes := [1, 0, 1, 2, 0, 0] ++ List.replicate 32 0 ++ [0, 0]

theorem parse_spendingBlob : parseAndValidateTxPrefixFromBlob spendingBlob = some spendingTx.toTransactionPrefix := by
  decide

theorem spendable_spendingTx : Spendable spendingTx.vin := ⟨by decide, by decide, by decide⟩

def firstSpend : Hash := Blob.fill 32 1

def secondSpend : Hash := Blob.fill 32 2

def otherBlob : Bytes := [1, 1, 1, 2, 0, 0] ++ List.replicate 32 0 ++ [0, 0]

def spendRow (relayMethod : RelayMethod) (blob : Bytes) : PoolRow :=
  ⟨⟨nullHash, 100, 30000000, 0, relayMethod, true, false, false⟩, blob⟩

def twicePool : TxMemoryPool where
  table := ((∅ : ByHash PoolRow).assign firstSpend (spendRow .fluff spendingBlob)).assign secondSpend (spendRow .block otherBlob)
  spentKeyImages := ∅
  txpoolWeight := 200
  txpoolMaxWeight := 648000000
  txsByFeeAndReceiveTime := [⟨300000, 0, firstSpend⟩, ⟨300000, 1, secondSpend⟩]
  addedTxsById := ∅
  timedOutTransactions := ∅
  parsedTxCache := ∅

def checking (inputCache : UnorderedMap Hash Bool) : FillFunctions :=
  ReadyState.fillFunctions ⟨id, fun _ => false, inputCache, fun _ => true⟩ false id

theorem rows_twicePool : ∀ id row, twicePool.table.find? id = some row → spendingFacts.Row id row := by
  intro id row hrow
  have hassign : (((∅ : ByHash PoolRow).assign firstSpend (spendRow .fluff spendingBlob)).assign secondSpend
      (spendRow .block otherBlob)).find? id = some row := hrow
  rw [OrderedMap.find?_assign, OrderedMap.find?_assign] at hassign
  split_ifs at hassign
  · cases hassign
    have hparse : parseAndValidateTxPrefixFromBlob otherBlob = some { spendingTx.toTransactionPrefix with unlockTime := 1 } := by
      decide
    exact ⟨⟨_, hparse, rfl⟩, spendable_spendingTx, rfl⟩
  · cases hassign
    exact ⟨⟨_, parse_spendingBlob, rfl⟩, spendable_spendingTx, rfl⟩
  · cases hassign

theorem fill_block_template_twice :
    (twicePool.fillBlockTemplate (checking ∅) 300000 0 16).map (fun t => t.txHashes) = some [firstSpend] ∧
    (twicePool.fillBlockTemplate (checking (.ofList [(firstSpend, true), (secondSpend, true)])) 300000 0 16).map (fun t => t.txHashes) = some [firstSpend, secondSpend] ∧
    clash spendingFacts firstSpend secondSpend = true := by
  decide +kernel

theorem fill_block_template_iff_fresh : ∃ bestCoinbase,
    twicePool.ClashesParsed (checking ∅) spendingFacts 300000 0 16 (.baseline bestCoinbase) twicePool.txsByFeeAndReceiveTime ∧
    ∃ t, twicePool.fillBlockTemplate (checking ∅) 300000 0 16 = some t ∧
      t.txHashes.Pairwise fun a b => clash spendingFacts a b = false := by
  obtain ⟨bestCoinbase, t, hbest, ht, hiff⟩ := fill_block_template_iff twicePool ⟨id, fun _ => false, ∅, fun _ => true⟩
    spendingFacts false id 300000 0 16 (by decide) (by decide) rows_twicePool rfl
  have hreward : getBlockReward 300000 0 0 16 = some 35184372088831 := by decide +kernel
  rw [hreward, Option.some_inj] at hbest
  subst hbest
  have hparsed : twicePool.WasParsed (checking ∅) firstSpend :=
    ⟨spendRow .fluff spendingBlob, [spendingInput], rfl, by decide +kernel, by decide⟩
  have htaken : (twicePool.disjointStep (checking ∅) spendingFacts 300000 0 16 (.baseline 35184372088831)
      ⟨300000, 0, firstSpend⟩).txHashes = [firstSpend] := by decide +kernel
  have hclashes : twicePool.ClashesParsed (checking ∅) spendingFacts 300000 0 16 (.baseline 35184372088831)
      twicePool.txsByFeeAndReceiveTime := by
    refine ⟨fun _ _ _ _ _ hany => (by cases hany), fun row coinbase vin hcandidate hready _ => ⟨?_, ?_⟩, trivial⟩
    · obtain ⟨hrow, -⟩ := TxMemoryPool.candidate_eq_some hcandidate
      have hsecond : twicePool.table.find? secondSpend = some (spendRow .block otherBlob) := rfl
      have hvin : (checking ∅).ready secondSpend (spendRow .block otherBlob) = some [spendingInput] := by decide +kernel
      cases hsecond.symm.trans hrow
      cases hvin.symm.trans hready
      exact List.cons_ne_nil _ _
    · rw [htaken]
      exact ⟨firstSpend, List.mem_singleton_self _, hparsed, rfl⟩
  exact ⟨_, hclashes, t, ht, (hiff.mpr hclashes).1⟩

end

end Velkavo.TxPool
