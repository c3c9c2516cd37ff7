import Velkavo.Containers.SortedTable
import Velkavo.Core.Timestamps
import Mathlib.Data.UInt

namespace Velkavo.TxPool

structure StatMeta where
  weight : UInt64
  fee : UInt64
  receiveTime : UInt64
  lastFailedHeight : UInt64
  relayed : Bool
  doubleSpendSeen : Bool

structure TxpoolHisto where
  txs : UInt32
  bytes : UInt64
  deriving DecidableEq

structure TxpoolStats where
  bytesTotal : UInt64 := 0
  bytesMin : UInt32 := 0
  bytesMax : UInt32 := 0
  bytesMed : UInt32 := 0
  feeTotal : UInt64 := 0
  oldest : UInt64 := 0
  txsTotal : UInt32 := 0
  numFailing : UInt32 := 0
  num10m : UInt32 := 0
  numNotRelayed : UInt32 := 0
  histo98pc : UInt64 := 0
  histo : List TxpoolHisto := []
  numDoubleSpends : UInt32 := 0

def TxpoolHisto.add (h h' : TxpoolHisto) : TxpoolHisto := ⟨h.txs + h'.txs, h.bytes + h'.bytes⟩

def StatMeta.age (now : UInt64) (m : StatMeta) : UInt64 := now - m.receiveTime + if now = m.receiveTime then 1 else 0

structure Counting where
  stats : TxpoolStats
  weights : List UInt32
  agebytes : OrderedMap UInt64.toNat TxpoolHisto

def Counting.visit (now : UInt64) (c : Counting) (m : StatMeta) : Counting where
  stats := { c.stats with
    bytesTotal := c.stats.bytesTotal + m.weight
    bytesMin :=
      if c.stats.bytesMin = 0 ∨ m.weight < c.stats.bytesMin.toUInt64 then m.weight.toUInt32 else c.stats.bytesMin
    bytesMax := if m.weight > c.stats.bytesMax.toUInt64 then m.weight.toUInt32 else c.stats.bytesMax
    numNotRelayed := c.stats.numNotRelayed + if m.relayed then 0 else 1
    feeTotal := c.stats.feeTotal + m.fee
    oldest := if c.stats.oldest = 0 ∨ m.receiveTime < c.stats.oldest then m.receiveTime else c.stats.oldest
    num10m := c.stats.num10m + if m.receiveTime < now - 600 then 1 else 0
    numFailing := c.stats.numFailing + if m.lastFailedHeight ≠ 0 then 1 else 0
    numDoubleSpends := c.stats.numDoubleSpends + if m.doubleSpendSeen then 1 else 0 }
  weights := c.weights ++ [m.weight.toUInt32]
  agebytes := c.agebytes.assign (m.age now) (((c.agebytes.find? (m.age now)).getD ⟨0, 0⟩).add ⟨1, m.weight⟩)

def percentilePlace (stop : ℕ) : ℕ → List (UInt64 × TxpoolHisto) → ℕ
  | _, [] => 0
  | cumulativeNum, e :: before =>
    if before ≠ [] ∧ cumulativeNum + e.2.txs.toNat < stop then percentilePlace stop (cumulativeNum + e.2.txs.toNat) before
    else before.length

def addAt (histo : List TxpoolHisto) (i : ℕ) (h : TxpoolHisto) : Option (List TxpoolHisto) :=
  if i < histo.length then some (histo.modify i (·.add h)) else none

structure Spread where
  histo98pc : UInt64
  factor : UInt64
  delta : UInt64
  bins : ℕ
  split : ℕ

def spreadMany (stop : ℕ) (entries : List (UInt64 × TxpoolHisto)) : Spread :=
  let place := percentilePlace stop 0 entries.reverse
  let first := ((entries[place]?).map Prod.fst).getD 0
  ⟨first, 9, first, 10, place⟩

def spreadFew (now : UInt64) (c : Counting) : Spread :=
  let factor := if c.stats.txsTotal > 9 then 10 else c.stats.txsTotal.toUInt64
  ⟨0, factor, now - c.stats.oldest, factor.toNat, c.agebytes.entries.length⟩

def spread (now : UInt64) (c : Counting) : Spread :=
  let stop := c.stats.txsTotal.toNat / 50
  if stop ≠ 0 then spreadMany stop c.agebytes.entries else spreadFew now c

def Spread.width (s : Spread) : UInt64 := if s.delta = 0 then 1 else s.delta

def Spread.index (s : Spread) (age : UInt64) : ℕ := ((age * s.factor - 1) / s.width).toNat

def histogram (s : Spread) (entries : List (UInt64 × TxpoolHisto)) : Option (List TxpoolHisto) := do
  let histo ← (entries.take s.split).foldlM (fun histo e => addAt histo (s.index e.1) e.2) (List.replicate s.bins ⟨0, 0⟩)
  (entries.drop s.split).foldlM (fun histo e => addAt histo s.factor.toNat e.2) histo

def countAll (now : UInt64) (metas : List StatMeta) : Counting :=
  metas.foldl (Counting.visit now) ⟨{ txsTotal := UInt32.ofNat metas.length }, [], ∅⟩

def getTransactionStats (now : UInt64) (metas : List StatMeta) : Option TxpoolStats :=
  let c := countAll now metas
  let stats : TxpoolStats := { c.stats with bytesMed := (Core.median (c.weights.map UInt32.toUInt64)).toUInt32 }
  if stats.txsTotal > 1 then
    let s := spread now c
    (histogram s c.agebytes.entries).map fun histo => { stats with histo98pc := s.histo98pc, histo }
  else some stats

def content (metas : List StatMeta) : TxpoolHisto :=
  ⟨UInt32.ofNat metas.length, UInt64.ofNat (metas.map fun m => m.weight.toNat).sum⟩

structure StatsOf (now : UInt64) (metas : List StatMeta) (stats : TxpoolStats) : Prop where
  bytesTotal : stats.bytesTotal = UInt64.ofNat (metas.map fun m => m.weight.toNat).sum
  feeTotal : stats.feeTotal = UInt64.ofNat (metas.map fun m => m.fee.toNat).sum
  num10m : stats.num10m = UInt32.ofNat (metas.countP fun m => m.receiveTime.toNat + 600 < now.toNat)
  numFailing : stats.numFailing = UInt32.ofNat (metas.countP fun m => m.lastFailedHeight ≠ 0)
  numDoubleSpends : stats.numDoubleSpends = UInt32.ofNat (metas.countP fun m => m.doubleSpendSeen)
  histo : ∃ bin : StatMeta → ℕ, (∀ m ∈ metas, bin m < stats.histo.length) ∧
    ∀ i < stats.histo.length, stats.histo[i]? = some (content (metas.filter fun m => bin m = i))

section

theorem content_append (l l' : List StatMeta) : content (l ++ l') = (content l).add (content l') := by
  simp only [content, TxpoolHisto.add, List.length_append, List.map_append, List.sum_append, UInt32.ofNat_add, UInt64.ofNat_add]

theorem content_singleton (m : StatMeta) : content [m] = ⟨1, m.weight⟩ := by
  simp only [content, List.length_singleton, List.map_singleton, List.sum_singleton, UInt64.ofNat_toNat]
  rfl

theorem content_perm {l l' : List StatMeta} (h : l.Perm l') : content l = content l' := by
  simp only [content, h.length_eq, (h.map _).sum_eq]

theorem content_filter_or (l : List StatMeta) {p q : StatMeta → Bool} (h : ∀ m, p m = true → q m = false) :
    content (l.filter fun m => p m || q m) = (content (l.filter p)).add (content (l.filter q)) := by
  rw [← content_append]
  apply content_perm
  have hperm := List.filter_append_perm p (l.filter fun m => p m || q m)
  rw [List.filter_filter, List.filter_filter] at hperm
  have hp : (fun m => p m && (p m || q m)) = p := by
    funext m
    cases p m <;> simp
  have hq : (fun m => !p m && (p m || q m)) = q := by
    funext m
    cases hm : p m
    · simp
    · simp [h m hm]
  rw [hp, hq] at hperm
  exact hperm.symm

end

section

variable {now : UInt64} {seen : List StatMeta} {c : Counting}

structure Counted (now : UInt64) (total : UInt32) (seen : List StatMeta) (c : Counting) : Prop where
  txsTotal : c.stats.txsTotal = total
  histo : c.stats.histo = []
  bytesTotal : c.stats.bytesTotal = UInt64.ofNat (seen.map fun m => m.weight.toNat).sum
  feeTotal : c.stats.feeTotal = UInt64.ofNat (seen.map fun m => m.fee.toNat).sum
  num10m : c.stats.num10m = UInt32.ofNat (seen.countP fun m => m.receiveTime < now - 600)
  numFailing : c.stats.numFailing = UInt32.ofNat (seen.countP fun m => m.lastFailedHeight ≠ 0)
  numDoubleSpends : c.stats.numDoubleSpends = UInt32.ofNat (seen.countP fun m => m.doubleSpendSeen)
  agebytes : ∀ a, c.agebytes.find? a =
    if ∃ m ∈ seen, m.age now = a then some (content (seen.filter fun m => m.age now = a)) else none

theorem ofNat_sum_concat (l : List StatMeta) (f : StatMeta → UInt64) (m : StatMeta) :
    UInt64.ofNat ((l ++ [m]).map fun m => (f m).toNat).sum = UInt64.ofNat (l.map fun m => (f m).toNat).sum + f m := by
  simp only [List.map_append, List.map_singleton, List.sum_append, List.sum_singleton, UInt64.ofNat_add, UInt64.ofNat_toNat]

theorem ofNat_countP_concat (l : List StatMeta) (p : StatMeta → Bool) (m : StatMeta) :
    UInt32.ofNat ((l ++ [m]).countP p) = UInt32.ofNat (l.countP p) + if p m then 1 else 0 := by
  rw [List.countP_append, List.countP_singleton, UInt32.ofNat_add]
  split_ifs <;> rfl

theorem Counted.getD_agebytes {total : UInt32} (h : Counted now total seen c) (a : UInt64) :
    (c.agebytes.find? a).getD ⟨0, 0⟩ = content (seen.filter fun m => m.age now = a) := by
  rw [h.agebytes]
  split_ifs with hex
  · rfl
  · have hnil : (seen.filter fun m => m.age now = a) = [] := by
      rw [List.filter_eq_nil_iff]
      intro m hm ha
      exact hex ⟨m, hm, of_decide_eq_true ha⟩
    rw [hnil]
    rfl

theorem Counted.visit {total : UInt32} (h : Counted now total seen c) (m : StatMeta) :
    Counted now total (seen ++ [m]) (c.visit now m) := by
  refine ⟨h.txsTotal, h.histo, ?_, ?_, ?_, ?_, ?_, fun a => ?_⟩
  · rw [ofNat_sum_concat, ← h.bytesTotal]
    rfl
  · rw [ofNat_sum_concat, ← h.feeTotal]
    rfl
  · rw [ofNat_countP_concat, ← h.num10m]
    simp [Counting.visit]
  · rw [ofNat_countP_concat, ← h.numFailing]
    simp [Counting.visit]
  · rw [ofNat_countP_concat, ← h.numDoubleSpends]
    rfl
  · simp only [Counting.visit, OrderedMap.find?_assign, UInt64.toNat_inj, List.filter_append]
    by_cases ha : a = m.age now
    · have hone : [m].filter (fun m' => m'.age now = m.age now) = [m] := by simp
      rw [if_pos ha, if_pos ⟨m, List.mem_append_right _ (List.mem_singleton_self m), ha.symm⟩, ha, h.getD_agebytes, hone,
        content_append, content_singleton]
    · have hm : ¬m.age now = a := fun heq => ha heq.symm
      have hiff : (∃ m' ∈ seen ++ [m], m'.age now = a) ↔ ∃ m' ∈ seen, m'.age now = a := by simp [or_and_right, exists_or, hm]
      rw [if_neg ha, h.agebytes, List.filter_cons_of_neg (by simpa using hm), List.filter_nil, List.append_nil]
      simp only [hiff]

theorem Counted.visits {total : UInt32} (h : Counted now total seen c) (l : List StatMeta) :
    Counted now total (seen ++ l) (l.foldl (Counting.visit now) c) := by
  induction l generalizing seen c with
  | nil => rwa [List.append_nil]
  | cons m l ih =>
    have hrest := ih (h.visit m)
    rwa [List.append_assoc] at hrest

theorem counted_countAll (now : UInt64) (metas : List StatMeta) :
    Counted now (UInt32.ofNat metas.length) metas (countAll now metas) := by
  have hstart : Counted now (UInt32.ofNat metas.length) [] ⟨{ txsTotal := UInt32.ofNat metas.length }, [], ∅⟩ := by
    refine ⟨rfl, rfl, rfl, rfl, rfl, rfl, rfl, fun a => ?_⟩
    have hnone : ¬∃ m ∈ ([] : List StatMeta), m.age now = a := by simp
    rw [if_neg hnone]
    rfl
  exact hstart.visits metas

end

section

variable {now : UInt64} {metas : List StatMeta} {entries : List (UInt64 × TxpoolHisto)} {histo : List TxpoolHisto}

def Binned (metas : List StatMeta) (histo : List TxpoolHisto) : Prop :=
  ∃ bin : StatMeta → ℕ, (∀ m ∈ metas, bin m < histo.length) ∧
    ∀ i < histo.length, histo[i]? = some (content (metas.filter fun m => bin m = i))

def Filled (now : UInt64) (metas : List StatMeta) (bin : UInt64 → ℕ) (ages : List UInt64) (histo : List TxpoolHisto) : Prop :=
  ∀ i < histo.length, histo[i]? = some (content (metas.filter fun m => m.age now ∈ ages ∧ bin (m.age now) = i))

theorem Filled.addAt {bin : UInt64 → ℕ} {ages : List UInt64} (h : Filled now metas bin ages histo) {a : UInt64} (hnew : a ∉ ages)
    (hbin : bin a < histo.length) :
    ∃ histo', addAt histo (bin a) (content (metas.filter fun m => m.age now = a)) = some histo' ∧
      histo'.length = histo.length ∧ Filled now metas bin (ages ++ [a]) histo' := by
  rw [TxPool.addAt, if_pos hbin]
  refine ⟨_, rfl, List.length_modify .., fun i hi => ?_⟩
  rw [List.length_modify] at hi
  rw [List.getElem?_modify, h i hi, Option.map_eq_map, Option.map_some]
  apply congrArg some
  split_ifs with heq
  · rw [← content_filter_or]
    · apply congrArg content
      apply List.filter_congr
      intro m _
      rw [← Bool.decide_or, decide_eq_decide, List.mem_append, List.mem_singleton]
      constructor
      · rintro (⟨hmem, hm⟩ | hm)
        · exact ⟨Or.inl hmem, hm⟩
        · exact ⟨Or.inr hm, hm ▸ heq⟩
      · rintro ⟨hmem | hm, hi⟩
        · exact Or.inl ⟨hmem, hi⟩
        · exact Or.inr hm
    · intro m hm
      apply decide_eq_false
      rintro rfl
      exact hnew (of_decide_eq_true hm).1
  · apply congrArg content
    apply List.filter_congr
    intro m _
    rw [decide_eq_decide, List.mem_append, List.mem_singleton]
    constructor
    · rintro ⟨hmem, hm⟩
      exact ⟨Or.inl hmem, hm⟩
    · rintro ⟨hmem | hm, hi⟩
      · exact ⟨hmem, hi⟩
      · exact absurd (hm ▸ hi) heq

theorem Filled.addAll {bin : UInt64 → ℕ} {ages : List UInt64} (h : Filled now metas bin ages histo) (index : UInt64 → ℕ)
    (hentries : ∀ e ∈ entries, e.2 = content (metas.filter fun m => m.age now = e.1))
    (hindex : ∀ e ∈ entries, index e.1 = bin e.1) (hnodup : (ages ++ entries.map Prod.fst).Nodup)
    (hbin : ∀ e ∈ entries, index e.1 < histo.length) :
    ∃ histo', entries.foldlM (fun histo e => TxPool.addAt histo (index e.1) e.2) histo = some histo' ∧
      histo'.length = histo.length ∧ Filled now metas bin (ages ++ entries.map Prod.fst) histo' := by
  induction entries generalizing ages histo with
  | nil => exact ⟨histo, rfl, rfl, by rwa [List.map_nil, List.append_nil]⟩
  | cons e entries ih =>
    rw [List.map_cons, List.append_cons] at hnodup ⊢
    have hfirst := hindex e List.mem_cons_self
    have hlt := hbin e List.mem_cons_self
    rw [hfirst] at hlt
    have hnew : e.1 ∉ ages := fun hmem =>
      (List.nodup_append.mp (List.nodup_append.mp hnodup).1).2.2 e.1 hmem e.1 (List.mem_singleton_self _) rfl
    obtain ⟨histo₁, hadd, hlen, hfilled⟩ := h.addAt hnew hlt
    obtain ⟨histo₂, hrest, hlen₂, hfilled₂⟩ := ih hfilled (fun e' he => hentries e' (List.mem_cons_of_mem _ he))
      (fun e' he => hindex e' (List.mem_cons_of_mem _ he)) hnodup
      (fun e' he => by rw [hlen]; exact hbin e' (List.mem_cons_of_mem _ he))
    refine ⟨histo₂, ?_, by rw [hlen₂, hlen], hfilled₂⟩
    rw [List.foldlM_cons, hfirst, hentries e List.mem_cons_self, hadd]
    exact hrest

theorem length_addAll {index : UInt64 → ℕ} {histo' : List TxpoolHisto}
    (h : entries.foldlM (fun histo e => TxPool.addAt histo (index e.1) e.2) histo = some histo') :
    histo'.length = histo.length ∧ ∀ e ∈ entries, index e.1 < histo.length := by
  induction entries generalizing histo with
  | nil =>
    cases h
    exact ⟨rfl, fun e he => absurd he List.not_mem_nil⟩
  | cons e entries ih =>
    rw [List.foldlM_cons] at h
    obtain ⟨histo₁, hadd, hrest⟩ := Option.bind_eq_some_iff.mp h
    rw [TxPool.addAt] at hadd
    split_ifs at hadd with hlt
    cases hadd
    have hrest := ih hrest
    rw [List.length_modify] at hrest
    exact ⟨hrest.1, List.forall_mem_cons.mpr ⟨hlt, hrest.2⟩⟩

def Spread.bin (s : Spread) (entries : List (UInt64 × TxpoolHisto)) (a : UInt64) : ℕ :=
  if a ∈ (entries.take s.split).map Prod.fst then s.index a else s.factor.toNat

theorem histogram_iff {s : Spread} (hentries : ∀ e ∈ entries, e.2 = content (metas.filter fun m => m.age now = e.1))
    (hnodup : (entries.map Prod.fst).Nodup) (hcover : ∀ m ∈ metas, m.age now ∈ entries.map Prod.fst)
    (hfar : s.split < entries.length → s.factor.toNat < s.bins) :
    (∃ histo, histogram s entries = some histo ∧ Binned metas histo) ↔ ∀ e ∈ entries.take s.split, s.index e.1 < s.bins := by
  constructor
  · rintro ⟨histo, hhisto, _⟩
    obtain ⟨histo₁, hnear, _⟩ := Option.bind_eq_some_iff.mp hhisto
    have hlt := (length_addAll hnear).2
    rwa [List.length_replicate] at hlt
  · intro hnear
    rw [← List.take_append_drop s.split entries, List.map_append] at hnodup hcover
    have hdisjoint := (List.nodup_append.mp hnodup).2.2
    have hbins : ∀ e ∈ entries.drop s.split, s.factor.toNat < s.bins := by
      intro e he
      apply hfar
      by_contra hge
      rw [List.drop_eq_nil_of_le (Nat.le_of_not_lt hge)] at he
      exact absurd he List.not_mem_nil
    have hstart : Filled now metas (s.bin entries) [] (List.replicate s.bins ⟨0, 0⟩) := by
      intro i hi
      rw [List.length_replicate] at hi
      rw [List.getElem?_replicate, if_pos hi, List.filter_eq_nil_iff.mpr (by simp)]
      rfl
    obtain ⟨histo₁, hloop₁, hlen₁, hfilled₁⟩ := hstart.addAll s.index
      (fun e he => hentries e (List.mem_of_mem_take he)) (fun e he => (if_pos (List.mem_map_of_mem he)).symm)
      (List.nodup_append.mp hnodup).1 (fun e he => by rw [List.length_replicate]; exact hnear e he)
    obtain ⟨histo₂, hloop₂, hlen₂, hfilled₂⟩ := hfilled₁.addAll (fun _ => s.factor.toNat)
      (fun e he => hentries e (List.mem_of_mem_drop he))
      (fun e he => (if_neg fun hmem => hdisjoint e.1 hmem e.1 (List.mem_map_of_mem he) rfl).symm) hnodup
      (fun e he => by rw [hlen₁, List.length_replicate]; exact hbins e he)
    refine ⟨histo₂, by rw [histogram, hloop₁]; exact hloop₂, fun m => s.bin entries (m.age now), fun m hm => ?_, fun i hi => ?_⟩
    · rw [hlen₂, hlen₁, List.length_replicate]
      by_cases hmem : m.age now ∈ (entries.take s.split).map Prod.fst
      · obtain ⟨e, he, heq⟩ := List.mem_map.mp hmem
        simp only [Spread.bin, if_pos hmem]
        exact heq ▸ hnear e he
      · obtain ⟨e, he, -⟩ := List.mem_map.mp ((List.mem_append.mp (hcover m hm)).resolve_left hmem)
        simp only [Spread.bin, if_neg hmem]
        exact hbins e he
    · rw [hfilled₂ i hi]
      apply congrArg some
      apply congrArg content
      apply List.filter_congr
      intro m hm
      rw [decide_eq_decide]
      exact and_iff_right (hcover m hm)

end

section

variable {s : Spread} {age : UInt64}

theorem Spread.width_pos (s : Spread) : 0 < s.width.toNat := by
  rw [width]
  split_ifs with hzero
  · exact Nat.one_pos
  · exact Nat.pos_of_ne_zero fun heq => hzero (UInt64.toNat_inj.mp heq)

theorem Spread.index_lt_iff (s : Spread) (age : UInt64) (n : ℕ) :
    s.index age < n ↔ (age * s.factor - 1).toNat < n * s.width.toNat := by
  rw [index, UInt64.toNat_div]
  exact Nat.div_lt_iff_lt_mul s.width_pos

theorem Spread.index_lt (hage : age ≠ 0) (hle : age.toNat ≤ s.width.toNat) (hfactor : s.factor ≠ 0) :
    s.index age < s.factor.toNat := by
  rw [index_lt_iff]
  have hpos : 0 < age.toNat := Nat.pos_of_ne_zero fun heq => hage (UInt64.toNat_inj.mp heq)
  have hfpos : 0 < s.factor.toNat := Nat.pos_of_ne_zero fun heq => hfactor (UInt64.toNat_inj.mp heq)
  have hprod : age.toNat * s.factor.toNat ≤ s.factor.toNat * s.width.toNat := by
    rw [Nat.mul_comm]
    exact Nat.mul_le_mul_left _ hle
  have hone : 1 ≤ age.toNat * s.factor.toNat := Nat.mul_pos hpos hfpos
  by_cases hlt : age.toNat * s.factor.toNat < 2 ^ 64
  · have hmul : (age * s.factor).toNat = age.toNat * s.factor.toNat := by
      rw [UInt64.toNat_mul]
      exact Nat.mod_eq_of_lt hlt
    have hsub : (age * s.factor - 1).toNat = age.toNat * s.factor.toNat - 1 := by
      rw [UInt64.toNat_sub_of_le _ _ (UInt64.le_iff_toNat_le.mpr (by rw [hmul]; exact hone)), hmul]
      rfl
    omega
  · have hword := (age * s.factor - 1).toNat_lt
    omega

theorem age_ne_zero (now : UInt64) (m : StatMeta) : m.age now ≠ 0 := by
  rw [StatMeta.age]
  split_ifs with heq
  · rw [heq, UInt64.sub_self, UInt64.zero_add]
    decide
  · rw [UInt64.add_zero]
    intro hzero
    have hnat := congrArg UInt64.toNat hzero
    rw [UInt64.toNat_sub, show (0 : UInt64).toNat = 0 from rfl] at hnat
    have hnow := now.toNat_lt
    have htime := m.receiveTime.toNat_lt
    exact heq (UInt64.toNat_inj.mp (by omega))

theorem percentilePlace_lt (stop : ℕ) {l : List (UInt64 × TxpoolHisto)} (cumulativeNum : ℕ) (h : l ≠ []) :
    percentilePlace stop cumulativeNum l < l.length := by
  induction l generalizing cumulativeNum with
  | nil => exact absurd rfl h
  | cons e before ih =>
    rw [percentilePlace]
    split_ifs with hnext
    · exact Nat.lt_succ_of_lt (ih _ hnext.1)
    · exact Nat.lt_succ_self _

end

section

variable {now : UInt64} {total : UInt32} {metas : List StatMeta} {c : Counting}

theorem Counted.entry (h : Counted now total metas c) {e : UInt64 × TxpoolHisto} (he : e ∈ c.agebytes.entries) :
    (∃ m ∈ metas, m.age now = e.1) ∧ e.2 = content (metas.filter fun m => m.age now = e.1) := by
  have hfind := (OrderedMap.mem_entries_iff (fun _ _ => UInt64.toNat_inj.mp) c.agebytes e.1 e.2).mp he
  rw [h.agebytes] at hfind
  split_ifs at hfind with hex
  exact ⟨hex, (Option.some_inj.mp hfind).symm⟩

theorem Counted.age_mem (h : Counted now total metas c) {m : StatMeta} (hm : m ∈ metas) :
    m.age now ∈ c.agebytes.entries.map Prod.fst := by
  have hfind := h.agebytes (m.age now)
  rw [if_pos ⟨m, hm, rfl⟩] at hfind
  exact List.mem_map_of_mem (f := Prod.fst)
    ((OrderedMap.mem_entries_iff (fun _ _ => UInt64.toNat_inj.mp) c.agebytes _ _).mpr hfind)

theorem spread_far (now : UInt64) (c : Counting) :
    (spread now c).split < c.agebytes.entries.length → (spread now c).factor.toNat < (spread now c).bins := by
  rw [spread]
  split_ifs
  · exact fun _ => Nat.lt_succ_self 9
  · exact fun hlt => absurd hlt (Nat.lt_irrefl _)

theorem Counted.spread_many (h : Counted now total metas c) (hmany : 50 ≤ total.toNat) :
    spread now c = spreadMany (c.stats.txsTotal.toNat / 50) c.agebytes.entries :=
  if_pos (by rw [h.txsTotal]; omega)

theorem Counted.spread_few (h : Counted now total metas c) (hfew : ¬50 ≤ total.toNat) : spread now c = spreadFew now c :=
  if_neg (by rw [h.txsTotal]; omega)

theorem index_lt_of_many (h : Counted now total metas c) (hmany : 50 ≤ total.toNat) :
    ∀ e ∈ c.agebytes.entries.take (spread now c).split, (spread now c).index e.1 < (spread now c).bins := by
  rw [h.spread_many hmany]
  intro e he
  obtain ⟨⟨m, _, hage⟩, -⟩ := h.entry (List.mem_of_mem_take he)
  have hne : e.1 ≠ 0 := hage ▸ age_ne_zero now m
  have hplace : percentilePlace (c.stats.txsTotal.toNat / 50) 0 c.agebytes.entries.reverse < c.agebytes.entries.length := by
    rw [← List.length_reverse]
    apply percentilePlace_lt
    rintro hnil
    rw [List.reverse_eq_nil_iff.mp hnil, List.take_nil] at he
    exact absurd he List.not_mem_nil
  have hle : e.1.toNat ≤ (spreadMany (c.stats.txsTotal.toNat / 50) c.agebytes.entries).width.toNat := by
    obtain ⟨i, hi, rfl⟩ := List.getElem_of_mem he
    rw [List.length_take] at hi
    rw [List.getElem_take]
    have hlt := List.pairwise_iff_getElem.mp c.agebytes.sorted i _ (Nat.lt_of_lt_of_le hi (Nat.min_le_right ..)) hplace
      (Nat.lt_of_lt_of_le hi (Nat.min_le_left ..))
    simp only [Spread.width, spreadMany, List.getElem?_eq_getElem hplace, Option.map_some, Option.getD_some]
    split_ifs with hzero
    · rw [hzero] at hlt
      exact absurd hlt (Nat.not_lt_zero _)
    · exact Nat.le_of_lt hlt
  exact Nat.lt_trans (Spread.index_lt hne hle (by decide : (9 : UInt64) ≠ 0)) (Nat.lt_succ_self 9)

theorem index_lt_of_few (h : Counted now total metas c) (hfew : ¬50 ≤ total.toNat) :
    (∀ e ∈ c.agebytes.entries.take (spread now c).split, (spread now c).index e.1 < (spread now c).bins) ↔
      ∀ m ∈ metas, (m.age now * (spread now c).factor - 1).toNat < (spread now c).factor.toNat * (spread now c).width.toNat := by
  rw [h.spread_few hfew, show (spreadFew now c).split = c.agebytes.entries.length from rfl, List.take_length]
  simp only [← Spread.index_lt_iff]
  constructor
  · intro hall m hm
    obtain ⟨e, he, heq⟩ := List.mem_map.mp (h.age_mem hm)
    exact heq ▸ hall e he
  · intro hall e he
    obtain ⟨⟨m, hm, heq⟩, -⟩ := h.entry he
    exact heq ▸ hall m hm

theorem oldest_le (l : List StatMeta) (hl : ∀ m ∈ l, m.receiveTime ≠ 0) (c : Counting) :
    (∀ m ∈ l, (l.foldl (Counting.visit now) c).stats.oldest ≤ m.receiveTime) ∧
      (c.stats.oldest ≠ 0 → (l.foldl (Counting.visit now) c).stats.oldest ≤ c.stats.oldest) := by
  induction l generalizing c with
  | nil => exact ⟨fun m hm => absurd hm List.not_mem_nil, fun _ => UInt64.le_refl _⟩
  | cons m l ih =>
    obtain ⟨hrest, hfirst⟩ := ih (fun m' hm => hl m' (List.mem_cons_of_mem _ hm)) (c.visit now m)
    have hm := hl m List.mem_cons_self
    have hvisit : (c.visit now m).stats.oldest ≠ 0 ∧ (c.visit now m).stats.oldest ≤ m.receiveTime ∧
        (c.stats.oldest ≠ 0 → (c.visit now m).stats.oldest ≤ c.stats.oldest) := by
      simp only [Counting.visit]
      split_ifs with hnew
      · exact ⟨hm, UInt64.le_refl _, fun hne => UInt64.le_of_lt (hnew.resolve_left hne)⟩
      · rw [not_or] at hnew
        exact ⟨hnew.1, UInt64.not_lt.mp hnew.2, fun _ => UInt64.le_refl _⟩
    have hle := hfirst hvisit.1
    refine ⟨List.forall_mem_cons.mpr ⟨UInt64.le_trans hle hvisit.2.1, hrest⟩, fun hne => UInt64.le_trans hle (hvisit.2.2 hne)⟩

def InBounds (now : UInt64) (metas : List StatMeta) (m : StatMeta) : Prop :=
  let s := spread now (countAll now metas)
  (m.age now * s.factor - 1).toNat < s.factor.toNat * s.width.toNat

theorem inBounds_of_times (htotal : UInt32.ofNat metas.length ≠ 0) (hfew : ¬50 ≤ (UInt32.ofNat metas.length).toNat)
    (htimes : ∀ m ∈ metas, m.receiveTime ≠ 0 ∧ m.receiveTime ≤ now) : ∀ m ∈ metas, InBounds now metas m := by
  intro m hm
  have hcounted := counted_countAll now metas
  have hspread := hcounted.spread_few hfew
  rw [InBounds, ← Spread.index_lt_iff]
  apply Spread.index_lt (age_ne_zero now m)
  · have holdest : (countAll now metas).stats.oldest ≤ m.receiveTime :=
      (oldest_le metas (fun m' hm' => (htimes m' hm').1) _).1 m hm
    by_cases hnow : now = m.receiveTime
    · have hone : m.age now = 1 := by rw [StatMeta.age, if_pos hnow, hnow, UInt64.sub_self, UInt64.zero_add]
      rw [hone]
      exact Spread.width_pos _
    · have hage : (m.age now).toNat = now.toNat - m.receiveTime.toNat := by
        rw [StatMeta.age, if_neg hnow, UInt64.add_zero, UInt64.toNat_sub_of_le _ _ (htimes m hm).2]
      have hdelta : (now - (countAll now metas).stats.oldest).toNat = now.toNat - (countAll now metas).stats.oldest.toNat :=
        UInt64.toNat_sub_of_le _ _ (UInt64.le_trans holdest (htimes m hm).2)
      have holdest := UInt64.le_iff_toNat_le.mp holdest
      rw [hage, hspread, Spread.width]
      split_ifs with hzero
      · have hzero : (now - (countAll now metas).stats.oldest).toNat = 0 := congrArg UInt64.toNat hzero
        omega
      · exact hdelta ▸ Nat.sub_le_sub_left holdest _
  · rw [hspread, spreadFew, hcounted.txsTotal]
    simp only
    split_ifs
    · decide
    · intro hzero
      have hnat := congrArg UInt64.toNat hzero
      rw [UInt32.toNat_toUInt64] at hnat
      exact htotal (UInt32.toNat_inj.mp hnat)

theorem num10m_iff (now : UInt64) (metas : List StatMeta) :
    UInt32.ofNat (metas.countP fun m => m.receiveTime < now - 600) =
        UInt32.ofNat (metas.countP fun m => m.receiveTime.toNat + 600 < now.toNat) ↔
      600 ≤ now ∨ UInt32.ofNat (metas.countP fun m => m.receiveTime < now - 600) = 0 := by
  have hconst : (600 : UInt64).toNat = 600 := rfl
  by_cases hnow : 600 ≤ now
  · have hpred : (fun m : StatMeta => decide (m.receiveTime < now - 600)) =
        fun m => decide (m.receiveTime.toNat + 600 < now.toNat) := by
      funext m
      rw [decide_eq_decide, UInt64.lt_iff_toNat_lt, UInt64.toNat_sub_of_le _ _ hnow, hconst]
      omega
    rw [hpred]
    exact iff_of_true rfl (Or.inl hnow)
  · have hnone : (metas.countP fun m => m.receiveTime.toNat + 600 < now.toNat) = 0 := by
      rw [List.countP_eq_zero]
      intro m _ hm
      have hm := of_decide_eq_true hm
      have hlt := UInt64.lt_iff_toNat_lt.mp (UInt64.not_le.mp hnow)
      omega
    rw [hnone, or_iff_right hnow]
    rfl

theorem Counted.statsOf_iff (h : Counted now total metas c) (bytesMed : UInt32) (histo98pc : UInt64) (histo : List TxpoolHisto) :
    StatsOf now metas { c.stats with bytesMed, histo98pc, histo } ↔
      Binned metas histo ∧ (600 ≤ now ∨ UInt32.ofNat (metas.countP fun m => m.receiveTime < now - 600) = 0) := by
  rw [← num10m_iff, ← h.num10m]
  constructor
  · exact fun hstats => ⟨hstats.histo, hstats.num10m⟩
  · rintro ⟨hhisto, hnum10m⟩
    exact ⟨h.bytesTotal, h.feeTotal, hnum10m, h.numFailing, h.numDoubleSpends, hhisto⟩

end

end Velkavo.TxPool
