import Velkavo.BlockchainDb.OutputColumns
import Velkavo.HardForks.HardFork

namespace Velkavo.Core

open Cryptonote ByteCodec BlockchainDb Effects

inductive DistributionError
  | lengthError
  | noElement
  | blockDne
  | dbError
  deriving DecidableEq

def earliestLoop (version : UInt8) : List HardforkT → ℕ → ℕ
  | [], height => height
  | i :: rest, height => if i.version ≥ version then earliestLoop version rest i.height else height

def getEarliestIdealHeightForVersion (heights : List HardforkT) (version : UInt8) : ℕ :=
  earliestLoop version heights.reverse (2 ^ 64 - 1)

def hfVersionDynamicFee : UInt8 := 4

def vectorMaxSize : ℕ := 2 ^ 60 - 1

def getBlockCumulativeRctOutputs (db : Db) (heights : List ℕ) : Except DistributionError (List ℕ) :=
  if heights.any fun height => height ≥ db.height then .error .blockDne
  else heights.mapM fun height =>
    match db.blockInfo.find? height with
    | none => .error .dbError
    | some info => .ok info.cumRct

def countRows (fromHeight toHeight : ℕ) : List ℕ → List ℕ → ℕ → Except DistributionError (List ℕ × ℕ)
  | [], distribution, base => .ok (distribution, base)
  | height :: rest, distribution, base =>
    if height ≥ fromHeight then
      if height - fromHeight < distribution.length then
        let distribution := distribution.modify (height - fromHeight) (· + 1)
        if toHeight > 0 ∧ height > toHeight then .ok (distribution, base)
        else countRows fromHeight toHeight rest distribution base
      else .error .noElement
    else if toHeight > 0 ∧ height > toHeight then .ok (distribution, base + 1)
    else countRows fromHeight toHeight rest distribution (base + 1)

def accumulate : ℕ → List ℕ → List ℕ
  | _, [] => []
  | sum, x :: rest => (sum + x) :: accumulate (sum + x) rest

def scanOutputDistribution (db : Db) (amount : UInt64) (fromHeight toHeight : ℕ) :
    Except DistributionError (Option (List ℕ × ℕ)) :=
  if fromHeight ≥ db.height then .ok none
  else do
    let counted ← countRows fromHeight toHeight (db.outs.rowHeights amount) (List.replicate (db.height - fromHeight) 0) 0
    .ok (some (accumulate counted.2 counted.1, 0))

structure OutputDistribution where
  startHeight : ℕ
  distribution : List ℕ
  base : ℕ
  deriving DecidableEq

def reservedSize (startHeight toHeight : ℕ) : ℕ := (toHeight + 1 + 2 ^ 64 - startHeight) % 2 ^ 64

def rctHeights (startHeight toHeight : ℕ) : List ℕ :=
  let realStartHeight := if startHeight > 0 then startHeight - 1 else startHeight
  List.range' realStartHeight (toHeight + 1 - realStartHeight)

def rctDistribution (db : Db) (startHeight toHeight : ℕ) : Except DistributionError OutputDistribution :=
  if reservedSize startHeight toHeight > vectorMaxSize then .error .lengthError
  else do
    let distribution ← getBlockCumulativeRctOutputs db (rctHeights startHeight toHeight)
    if startHeight > 0 then
      match distribution with
      | [] => .error .noElement
      | base :: rest => .ok ⟨startHeight, rest, base⟩
    else .ok ⟨startHeight, distribution, 0⟩

def firstHeight (nettype : NetworkType) (forks : List HardforkT) (amount : UInt64) (fromHeight : ℕ) : ℕ :=
  let startHeight :=
    if amount = 0 ∧ nettype ≠ .fakechain then getEarliestIdealHeightForVersion forks hfVersionDynamicFee else 0
  if fromHeight > startHeight then fromHeight else startHeight

def getOutputDistribution (db : Db) (nettype : NetworkType) (forks : List HardforkT) (amount : UInt64)
    (fromHeight toHeight : ℕ) : Except DistributionError (Option OutputDistribution) :=
  let startHeight := firstHeight nettype forks amount fromHeight
  if toHeight > 0 ∧ toHeight < fromHeight then .ok none
  else if db.height = 0 then .ok none
  else if startHeight ≥ db.height ∨ toHeight ≥ db.height then .ok none
  else if amount = 0 then (rctDistribution db startHeight toHeight).map some
  else (scanOutputDistribution db amount startHeight toHeight).map
    fun scanned => scanned.map fun x => ⟨startHeight, x.1, x.2⟩

def Distributes (chain : List BlockchainDb.StoredBlock) (amount : UInt64) (fromHeight toHeight : ℕ) :
    Except DistributionError (Option OutputDistribution) → Prop
  | .error _ => False
  | .ok none => True
  | .ok (some d) => fromHeight ≤ d.startHeight ∧
      (∀ h, d.startHeight ≤ h → h ≤ toHeight →
        d.distribution[h - d.startHeight]? = some (totalOutputs amount (chain.take (h + 1)))) ∧
      d.base = if amount = 0 then totalOutputs 0 (chain.take d.startHeight) else 0

theorem getElem?_accumulate (sum : ℕ) (l : List ℕ) {j : ℕ} (h : j < l.length) :
    (accumulate sum l)[j]? = some (sum + (l.take (j + 1)).sum) := by
  induction l generalizing sum j with
  | nil => exact absurd h (Nat.not_lt_zero j)
  | cons x rest ih =>
    cases j with
    | zero => simp [accumulate]
    | succ j =>
      rw [accumulate, List.getElem?_cons_succ, ih (sum + x) (Nat.lt_of_succ_lt_succ h), List.take_succ_cons, List.sum_cons,
        Nat.add_assoc]

theorem sum_take_modify {l : List ℕ} {i : ℕ} (h : i < l.length) (n : ℕ) :
    ((l.modify i (· + 1)).take n).sum = (l.take n).sum + if i < n then 1 else 0 := by
  induction l generalizing i n with
  | nil => exact absurd h (Nat.not_lt_zero i)
  | cons x rest ih =>
    cases n with
    | zero => simp
    | succ n =>
      cases i with
      | zero =>
        simp
        omega
      | succ i =>
        have hrest := ih (Nat.lt_of_succ_lt_succ h) n
        simp only [List.modify_succ_cons, List.take_succ_cons, List.sum_cons, Nat.add_lt_add_iff_right]
        omega

theorem countRows_spec {fromHeight toHeight : ℕ} {rows distribution : List ℕ} {base : ℕ} (hsorted : rows.Pairwise (· ≤ ·))
    (hrows : ∀ height ∈ rows, height < fromHeight + distribution.length) :
    ∃ distribution' base', countRows fromHeight toHeight rows distribution base = .ok (distribution', base') ∧
      distribution'.length = distribution.length ∧
      ∀ h, fromHeight ≤ h → h ≤ toHeight →
        base' + (distribution'.take (h - fromHeight + 1)).sum =
          base + (distribution.take (h - fromHeight + 1)).sum + rows.countP fun height => height ≤ h := by
  induction rows generalizing distribution base with
  | nil => exact ⟨distribution, base, rfl, rfl, fun h _ _ => rfl⟩
  | cons height rest ih =>
    obtain ⟨hle, hrest⟩ := List.pairwise_cons.mp hsorted
    obtain ⟨hheight, hrows⟩ := List.forall_mem_cons.mp hrows
    have hstop : ∀ h, toHeight > 0 ∧ height > toHeight → h ≤ toHeight → (rest.countP fun height => height ≤ h) = 0 := by
      rintro h ⟨-, habove⟩ hto
      refine List.countP_eq_zero.mpr fun x hx => ?_
      have hx := hle x hx
      simp only [decide_eq_true_eq]
      omega
    have hcons : ∀ h, ((height :: rest).countP fun height => height ≤ h) =
        (rest.countP fun height => height ≤ h) + if height ≤ h then 1 else 0 := by
      intro h
      rw [List.countP_cons]
      simp only [decide_eq_true_eq]
    by_cases hfrom : height ≥ fromHeight
    · have hindex : height - fromHeight < distribution.length := by omega
      have hlength : (distribution.modify (height - fromHeight) (· + 1)).length = distribution.length := List.length_modify ..
      have hbump : ∀ h, fromHeight ≤ h → ((distribution.modify (height - fromHeight) (· + 1)).take (h - fromHeight + 1)).sum =
          (distribution.take (h - fromHeight + 1)).sum + if height ≤ h then 1 else 0 := by
        intro h hh
        rw [sum_take_modify hindex]
        exact congrArg _ (if_congr (by omega) rfl rfl)
      rw [countRows, if_pos hfrom, if_pos hindex]
      by_cases hover : toHeight > 0 ∧ height > toHeight
      · refine ⟨_, base, if_pos hover, hlength, fun h hh hto => ?_⟩
        rw [hbump h hh, hcons, hstop h hover hto]
        omega
      · obtain ⟨distribution', base', hrun, hlength', hcount⟩ := ih hrest (by rwa [hlength])
        refine ⟨distribution', base', (if_neg hover).trans hrun, hlength'.trans hlength, fun h hh hto => ?_⟩
        rw [hcount h hh hto, hbump h hh, hcons]
        omega
    · rw [countRows, if_neg hfrom]
      by_cases hover : toHeight > 0 ∧ height > toHeight
      · refine ⟨distribution, base + 1, if_pos hover, rfl, fun h hh hto => ?_⟩
        rw [hcons, hstop h hover hto, if_pos (by omega)]
        omega
      · obtain ⟨distribution', base', hrun, hlength', hcount⟩ := ih hrest hrows
        refine ⟨distribution', base', (if_neg hover).trans hrun, hlength', fun h hh hto => ?_⟩
        rw [hcount h hh hto, hcons, if_pos (by omega)]
        omega

section

variable {chain : List BlockchainDb.StoredBlock} {db : Db} (h : Columns chain db)

include h

variable {toHeight startHeight : ℕ}

theorem exists_scan {amount : UInt64} {fromHeight : ℕ} (hfrom : fromHeight ≤ toHeight) (hto : toHeight < chain.length) :
    ∃ distribution, scanOutputDistribution db amount fromHeight toHeight = .ok (some (distribution, 0)) ∧
      ∀ height, fromHeight ≤ height → height ≤ toHeight →
        distribution[height - fromHeight]? = some (totalOutputs amount (chain.take (height + 1))) := by
  have hrows : ∀ height ∈ outputHeights amount chain, height < fromHeight + (List.replicate (db.height - fromHeight) 0).length := by
    intro height hmem
    rw [List.length_replicate, h.height_eq]
    have hlt := lt_of_mem_outputHeights hmem
    omega
  obtain ⟨distribution, base, hrun, hlength, hcount⟩ :=
    @countRows_spec fromHeight toHeight _ (List.replicate (db.height - fromHeight) 0) 0 (pairwise_outputHeights amount chain) hrows
  refine ⟨accumulate base distribution, ?_, fun height hge hle => ?_⟩
  · rw [scanOutputDistribution, if_neg (by rw [h.height_eq]; omega), h.rows]
    exact bind_eq_ok.mpr ⟨_, hrun, rfl⟩
  · rw [getElem?_accumulate, hcount height hge hle, countP_outputHeights, List.take_replicate, List.sum_replicate]
    · simp
    · rw [hlength, List.length_replicate, h.height_eq]
      omega

theorem getBlockCumulativeRctOutputs_eq {heights : List ℕ} (hheights : ∀ height ∈ heights, height < chain.length) :
    getBlockCumulativeRctOutputs db heights = .ok (heights.map fun height => cumColumn (chain.take (height + 1))) := by
  have hbelow : ¬(heights.any fun height => height ≥ db.height) = true := by
    simp only [List.any_eq_true, decide_eq_true_eq, not_exists, not_and, Nat.not_le]
    intro height hmem
    rw [h.height_eq]
    exact hheights height hmem
  rw [getBlockCumulativeRctOutputs, if_neg hbelow]
  clear hbelow
  induction heights with
  | nil => rfl
  | cons height rest ih =>
    obtain ⟨hheight, hrest⟩ := List.forall_mem_cons.mp hheights
    obtain ⟨info, hfind, hcum⟩ := h.info height hheight
    rw [List.mapM_cons, hfind, ih hrest, List.map_cons, ← hcum]
    rfl

theorem rctDistribution_eq (hstart : startHeight ≤ toHeight + 1) (hto : toHeight < chain.length)
    (hsize : chain.length ≤ vectorMaxSize) :
    rctDistribution db startHeight toHeight =
      .ok ⟨startHeight, (List.range' startHeight (toHeight + 1 - startHeight)).map fun height =>
        cumColumn (chain.take (height + 1)), cumColumn (chain.take startHeight)⟩ := by
  have hreserve : ¬reservedSize startHeight toHeight > vectorMaxSize := by
    have hmax : vectorMaxSize < 2 ^ 64 := by decide
    have hsame : reservedSize startHeight toHeight = toHeight + 1 - startHeight := by
      rw [reservedSize, (by omega : toHeight + 1 + 2 ^ 64 - startHeight = toHeight + 1 - startHeight + 2 ^ 64),
        Nat.add_mod_right, Nat.mod_eq_of_lt (by omega)]
    omega
  have hbelow : ∀ height ∈ rctHeights startHeight toHeight, height < chain.length := by
    intro height hmem
    have hlt := (List.mem_range'_1.mp hmem).2
    split_ifs at hlt <;> omega
  rw [rctDistribution, if_neg hreserve]
  refine bind_eq_ok.mpr ⟨_, getBlockCumulativeRctOutputs_eq h hbelow, ?_⟩
  rw [rctHeights]
  cases startHeight with
  | zero => rfl
  | succ start =>
    have hrange : toHeight + 1 - start = (toHeight - start) + 1 := by omega
    rw [if_pos (Nat.succ_pos start), if_pos (Nat.succ_pos start), Nat.add_sub_cancel, hrange, List.range'_succ, List.map_cons,
      Nat.add_sub_add_right]

omit h in
theorem rctDistribution_fails (hstart : toHeight + 1 < startHeight) :
    ∃ e, rctDistribution db startHeight toHeight = .error e := by
  rw [rctDistribution]
  by_cases hreserve : reservedSize startHeight toHeight > vectorMaxSize
  · exact ⟨_, if_pos hreserve⟩
  · have hpos : startHeight > 0 := by omega
    have hempty : rctHeights startHeight toHeight = [] := by
      rw [rctHeights, if_pos hpos, (by omega : toHeight + 1 - (startHeight - 1) = 0)]
      rfl
    rw [if_neg hreserve, hempty]
    refine ⟨.noElement, ?_⟩
    change (if startHeight > 0 then Except.error DistributionError.noElement
      else Except.ok (⟨startHeight, [], 0⟩ : OutputDistribution)) = _
    exact if_pos hpos

theorem distributes_rct_iff {fromHeight : ℕ} (hfrom : fromHeight ≤ startHeight)
    (hstart : startHeight ≤ toHeight + 1) (hto : toHeight < chain.length) (hsize : chain.length ≤ vectorMaxSize) :
    Distributes chain 0 fromHeight toHeight ((rctDistribution db startHeight toHeight).map some) ↔
      RctAfterOld (chain.take (toHeight + 1)) := by
  rw [rctDistribution_eq h hstart hto hsize]
  have helement : ∀ height, startHeight ≤ height → height ≤ toHeight →
      ((List.range' startHeight (toHeight + 1 - startHeight)).map fun height =>
        cumColumn (chain.take (height + 1)))[height - startHeight]? = some (cumColumn (chain.take (height + 1))) := by
    intro height hge hle
    rw [List.getElem?_map, List.getElem?_range' (by omega), Option.map_some, Nat.one_mul, Nat.add_sub_cancel' hge]
  change (fromHeight ≤ startHeight ∧ _ ∧ _) ↔ _
  constructor
  · rintro ⟨-, hentries, hbase⟩
    rw [← cumColumn_eq_iff]
    rcases Nat.lt_or_ge toHeight startHeight with hlt | hge
    · have htop : startHeight = toHeight + 1 := by omega
      rw [← htop]
      exact hbase
    · have hlast := hentries toHeight hge le_rfl
      rw [helement toHeight hge le_rfl] at hlast
      exact Option.some.inj hlast
  · intro hold
    have hcolumn : ∀ n ≤ toHeight + 1, cumColumn (chain.take n) = totalOutputs 0 (chain.take n) := by
      intro n hn
      have htake := hold.take n
      rw [List.take_take, Nat.min_eq_left hn] at htake
      exact (cumColumn_eq_iff _).mpr htake
    refine ⟨hfrom, fun height hge hle => ?_, ?_⟩
    · rw [helement height hge hle, hcolumn _ (by omega)]
    · exact hcolumn startHeight hstart

end

theorem firstHeight_eq (nettype : NetworkType) (forks : List HardforkT) (amount : UInt64) (fromHeight : ℕ) :
    firstHeight nettype forks amount fromHeight = max fromHeight
      (if amount = 0 ∧ nettype ≠ .fakechain then getEarliestIdealHeightForVersion forks hfVersionDynamicFee else 0) := by
  rw [firstHeight]
  generalize (if amount = 0 ∧ nettype ≠ .fakechain then getEarliestIdealHeightForVersion forks hfVersionDynamicFee else 0) = s
  rcases Nat.lt_or_ge s fromHeight with hlt | hge
  · rw [if_pos hlt, max_eq_left hlt.le]
  · rw [if_neg (Nat.not_lt.mpr hge), max_eq_right hge]

theorem output_distribution_iff {k : DbFunctions} {chain : List BlockchainDb.StoredBlock} {db : Db}
    (hstored : StoredChain k chain db)
    (hsize : chain.length ≤ vectorMaxSize) {nettype : NetworkType} (hnet : nettype ≠ .fakechain) (forks : List HardforkT)
    (amount : UInt64) {fromHeight toHeight : ℕ} (hfrom : fromHeight ≤ toHeight) (hto : toHeight < chain.length) :
    Distributes chain amount fromHeight toHeight (getOutputDistribution db nettype forks amount fromHeight toHeight) ↔
      amount ≠ 0 ∨ chain.length ≤ max fromHeight (getEarliestIdealHeightForVersion forks hfVersionDynamicFee) ∨
        (max fromHeight (getEarliestIdealHeightForVersion forks hfVersionDynamicFee) ≤ toHeight + 1 ∧
          RctAfterOld (chain.take (toHeight + 1))) := by
  have hcolumns := hstored.columns
  have hheight := hcolumns.height_eq
  rw [getOutputDistribution, if_neg (by omega), if_neg (by omega)]
  by_cases hamount : amount = 0
  · subst hamount
    have hstart : firstHeight nettype forks 0 fromHeight =
        max fromHeight (getEarliestIdealHeightForVersion forks hfVersionDynamicFee) := by
      rw [firstHeight_eq, if_pos ⟨rfl, hnet⟩]
    rw [hstart]
    generalize hS : max fromHeight (getEarliestIdealHeightForVersion forks hfVersionDynamicFee) = startHeight
    have hge : fromHeight ≤ startHeight := hS ▸ le_max_left _ _
    rw [or_iff_right fun hne : (0 : UInt64) ≠ 0 => hne rfl]
    by_cases habove : chain.length ≤ startHeight
    · refine iff_of_true ?_ (.inl habove)
      rw [if_pos (.inl (hheight ▸ habove))]
      trivial
    · rw [if_neg (by omega), if_pos rfl, or_iff_right habove]
      by_cases hrange : startHeight ≤ toHeight + 1
      · rw [distributes_rct_iff hcolumns hge hrange hto hsize, and_iff_right hrange]
      · refine iff_of_false ?_ fun hcond => hrange hcond.1
        obtain ⟨e, herror⟩ := rctDistribution_fails (Nat.lt_of_not_le hrange)
        rw [herror]
        exact not_false
  · have hstart : firstHeight nettype forks amount fromHeight = fromHeight := by
      rw [firstHeight_eq, if_neg fun hzero => hamount hzero.1, Nat.max_zero]
    refine iff_of_true ?_ (.inl hamount)
    rw [hstart, if_neg (by omega), if_neg hamount]
    obtain ⟨distribution, hscan, hcount⟩ := exists_scan hcolumns hfrom hto
    rw [hscan]
    exact ⟨le_rfl, hcount, (if_neg hamount).symm⟩

def addBlocks (k : DbFunctions) (blocks : List BlockchainDb.StoredBlock) (db : Db) : Except DbError Db :=
  blocks.foldlM (fun db b => Db.addBlock k db b.blk noMetadata b.txs) db

theorem storedChain_of_run {k : DbFunctions} {chain blocks : List BlockchainDb.StoredBlock} {db db' : Db}
    (hstored : StoredChain k chain db)
    (haccepted : ∀ b ∈ blocks, b.Accepted)
    (hrun : addBlocks k blocks db = .ok db') :
    StoredChain k (chain ++ blocks) db' := by
  induction blocks generalizing chain db with
  | nil =>
    cases hrun
    rw [List.append_nil]
    exact hstored
  | cons b rest ih =>
    obtain ⟨hb, hrest⟩ := List.forall_mem_cons.mp haccepted
    rw [addBlocks, List.foldlM_cons] at hrun
    obtain ⟨db₁, hadd, hrun⟩ := bind_eq_ok.mp hrun
    rw [List.append_cons]
    exact ih (hstored.add b noMetadata hb hadd) hrest hrun

def coinbaseBlock (majorVersion : UInt8) (version height : UInt64) (prevId : Hash) : BlockchainDb.StoredBlock :=
  ⟨⟨⟨majorVersion, 0, height, prevId, 0⟩,
    ⟨⟨version, height + 60, [.gen height], [⟨7, .toKey (Blob.fill 32 5)⟩], []⟩, [], default, false⟩, []⟩, []⟩

def blockAfter (b : BlockchainDb.StoredBlock) (majorVersion : UInt8) (version height : UInt64) : BlockchainDb.StoredBlock :=
  coinbaseBlock majorVersion version height (getBlockHash summingFunctions.toHashFunctions b.blk)

def earlyChain : List BlockchainDb.StoredBlock :=
  let b₀ := coinbaseBlock 1 1 0 nullHash
  let b₁ := blockAfter b₀ 1 2 1
  let b₂ := blockAfter b₁ 2 1 2
  let b₃ := blockAfter b₂ 3 1 3
  [b₀, b₁, b₂, b₃, blockAfter b₃ 4 1 4]

theorem accepted_coinbaseBlock {majorVersion : UInt8} {version height : UInt64} {prevId : Hash} (h : version = 1 ∨ version = 2) :
    (coinbaseBlock majorVersion version height prevId).Accepted :=
  ⟨⟨height, rfl⟩, h, List.forall_mem_nil _⟩

theorem accepted_earlyChain : ∀ b ∈ earlyChain, b.Accepted := by
  intro b hb
  simp only [earlyChain, blockAfter, List.mem_cons, List.not_mem_nil, or_false] at hb
  rcases hb with rfl | rfl | rfl | rfl | rfl
  · exact accepted_coinbaseBlock (.inl rfl)
  · exact accepted_coinbaseBlock (.inr rfl)
  · exact accepted_coinbaseBlock (.inl rfl)
  · exact accepted_coinbaseBlock (.inl rfl)
  · exact accepted_coinbaseBlock (.inl rfl)

theorem exists_earlyChain : ∃ db, StoredChain summingFunctions earlyChain db := by
  have hok : (addBlocks summingFunctions earlyChain (Db.empty none)).toBool = true := by decide +kernel
  cases hrun : addBlocks summingFunctions earlyChain (Db.empty none) with
  | error e =>
    rw [hrun] at hok
    cases hok
  | ok db => exact ⟨db, storedChain_of_run (.empty none) accepted_earlyChain hrun⟩

theorem output_distribution_early :
    ∃ db, StoredChain summingFunctions earlyChain db ∧
      Distributes earlyChain 7 0 4 (getOutputDistribution db .mainnet mainnetHardForks 7 0 4) := by
  obtain ⟨db, hstored⟩ := exists_earlyChain
  exact ⟨db, hstored, (output_distribution_iff hstored (by decide) (by decide) mainnetHardForks 7 (by decide) (by decide)).mpr
    (.inl (by decide))⟩

theorem output_distribution_fails :
    ∃ db, StoredChain summingFunctions earlyChain db ∧
      getOutputDistribution db .mainnet mainnetHardForks 0 0 0 = .error .lengthError ∧
      getOutputDistribution db .mainnet mainnetHardForks 0 4 4 = .ok (some ⟨4, [0], 0⟩) ∧
      totalOutputs 0 (earlyChain.take 5) = 1 := by
  obtain ⟨db, hstored⟩ := exists_earlyChain
  have hcolumns := hstored.columns
  have hheight : db.height = 5 := hcolumns.height_eq
  refine ⟨db, hstored, ?_, ?_, by decide +kernel⟩
  · rw [getOutputDistribution, hheight]
    rfl
  · have hrct := rctDistribution_eq hcolumns (by decide : 4 ≤ 4 + 1) (by decide) (by decide)
    have hcum : cumColumn (earlyChain.take 5) = 0 ∧ cumColumn (earlyChain.take 4) = 0 := by decide +kernel
    rw [getOutputDistribution, hheight]
    change (rctDistribution db 4 4).map some = _
    rw [hrct]
    change Except.ok (some (⟨4, [cumColumn (earlyChain.take 5)], cumColumn (earlyChain.take 4)⟩ : OutputDistribution)) = _
    rw [hcum.1, hcum.2]

end Velkavo.Core
