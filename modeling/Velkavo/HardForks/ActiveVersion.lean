import Velkavo.HardForks.HardFork
import Mathlib.Data.List.Chain

/-! With all thresholds 0 the active version is a function of the height. -/

namespace Velkavo.Cryptonote.HardFork

structure Schedule (forks : List HardforkT) (original : UInt8) : Prop where
  ne_nil : forks ≠ []
  version_lt : ∀ {m n}, m < n → n < forks.length → forkVersion forks m < forkVersion forks n
  height_lt : ∀ {m n}, m < n → n < forks.length → forkHeight forks m < forkHeight forks n
  threshold : ∀ fork ∈ forks, fork.threshold = 0
  first : forkVersion forks 0 = original

def indexAt (forks : List HardforkT) (height : ℕ) : ℕ := highestFork forks height (forks.length - 1)

def versionAt (forks : List HardforkT) (height : ℕ) : UInt8 := forkVersion forks (indexAt forks height)

variable {forks : List HardforkT} {original : UInt8} {height : ℕ}

theorem highestFork_le (n : ℕ) : highestFork forks height n ≤ n := by
  induction n with
  | zero => exact le_rfl
  | succ n ih =>
    rw [highestFork]
    split_ifs
    · exact le_rfl
    · exact ih.trans n.le_succ

theorem highestFork_started (forks : List HardforkT) (height n : ℕ) :
    highestFork forks height n = 0 ∨ forkHeight forks (highestFork forks height n) ≤ height := by
  induction n with
  | zero => exact .inl rfl
  | succ n ih =>
    rw [highestFork]
    split_ifs with h
    · exact .inr h
    · exact ih

theorem le_highestFork {n j : ℕ} (hj : j ≤ n) (h : forkHeight forks j ≤ height) :
    j ≤ highestFork forks height n := by
  induction n with
  | zero => exact hj
  | succ n ih =>
    rw [highestFork]
    split_ifs with hn
    · exact hj
    · apply ih
      by_contra hlt
      have hjn : j = n + 1 := by omega
      exact hn (hjn ▸ h)

theorem highestFork_mono {height' : ℕ} (h : height ≤ height') (n : ℕ) :
    highestFork forks height n ≤ highestFork forks height' n := by
  rcases highestFork_started forks height n with hzero | hstarted
  · rw [hzero]
    exact Nat.zero_le _
  · exact le_highestFork (highestFork_le n) (hstarted.trans h)

namespace Schedule

variable (h : Schedule forks original)

include h

theorem indexAt_lt (height : ℕ) : indexAt forks height < forks.length := by
  have hle : indexAt forks height ≤ forks.length - 1 := highestFork_le _
  have hpos := List.length_pos_iff.mpr h.ne_nil
  omega

theorem indexAt_zero : indexAt forks 0 = 0 := by
  rcases highestFork_started forks 0 (forks.length - 1) with hzero | hstarted
  · exact hzero
  · by_contra hne
    have hlt := h.height_lt (Nat.pos_of_ne_zero hne) (h.indexAt_lt 0)
    change forkHeight forks (indexAt forks 0) ≤ 0 at hstarted
    omega

theorem versionAt_zero : versionAt forks 0 = original := by rw [versionAt, h.indexAt_zero, h.first]

theorem index_lt {n : ℕ} (hn : n < forks.length) : n < 256 := by
  have hle : ∀ n < forks.length, n ≤ (forkVersion forks n).toNat := by
    intro n
    induction n with
    | zero => exact fun _ => Nat.zero_le _
    | succ n ih =>
      intro hn
      have hlt := UInt8.lt_iff_toNat_lt.mp (h.version_lt (Nat.lt_add_one n) hn)
      have := ih (by omega)
      omega
  exact (hle n hn).trans_lt (UInt8.toNat_lt _)

theorem lowerTo_eq {i n : ℕ} (hi : i ≤ n) (hn : n < forks.length) : lowerTo forks (forkVersion forks i) n = i := by
  induction n with
  | zero => exact (Nat.le_zero.mp hi).symm
  | succ n ih =>
    rw [lowerTo]
    split_ifs with hgt
    · apply ih _ (by omega)
      by_contra hlt
      have hin : i = n + 1 := by omega
      rw [hin] at hgt
      exact UInt8.lt_irrefl _ hgt
    · by_contra hne
      exact hgt (h.version_lt (by omega) hn)

end Schedule

theorem seekVersion_eq {forks : List HardforkT}
    (hlt : ∀ {m n}, m < n → n < forks.length → forkVersion forks m < forkVersion forks n) {i : ℕ}
    (hi : i < forks.length) : seekVersion (forkVersion forks i) forks = i := by
  induction forks generalizing i with
  | nil => cases hi
  | cons fork rest ih =>
    cases rest with
    | nil =>
      rw [List.length_singleton, Nat.lt_one_iff] at hi
      exact hi.symm
    | cons next rest =>
      cases i with
      | zero => exact if_pos rfl
      | succ i =>
        have hne : fork.version ≠ forkVersion (fork :: next :: rest) (i + 1) := UInt8.ne_of_lt (hlt i.succ_pos hi)
        rw [seekVersion, if_neg hne]
        apply congrArg Nat.succ
        apply ih
        · intro m n hmn hn
          exact hlt (Nat.succ_lt_succ hmn) (Nat.succ_lt_succ hn)
        · exact Nat.lt_of_succ_lt_succ hi

structure Tracks (forks : List HardforkT) (original : UInt8) (h : ℕ) (hf : HardFork) : Prop where
  heights : hf.heights = forks
  original : hf.originalVersion = original
  index : hf.currentForkIndex = indexAt forks h
  blocks : ∀ {k b}, hf.db.blocks[k]? = some b →
    b.majorVersion = versionAt forks k ∧ versionAt forks k ≤ getBlockVote b
  stored : ∀ k < hf.db.height, k ≠ h → hf.db.hardForkVersions k = some (versionAt forks k)
  versions : 0 < h → hf.versions ≠ []

variable {hf : HardFork}

theorem idealVersion_eq (hs : Schedule hf.heights hf.originalVersion) (n : ℕ) :
    hf.idealVersion height n = forkVersion hf.heights (highestFork hf.heights height n) := by
  induction n with
  | zero => exact hs.first.symm
  | succ n ih =>
    rw [idealVersion, highestFork]
    split_ifs
    · rfl
    · exact ih

theorem getIdealVersion_eq (hs : Schedule hf.heights hf.originalVersion) :
    hf.getIdealVersion height = versionAt hf.heights height :=
  idealVersion_eq hs _

theorem votedForkIndex_eq (hzero : ∀ fork ∈ hf.heights, fork.threshold = 0) (n : ℕ) (votes : UInt32) :
    hf.votedForkIndex height n votes = highestFork hf.heights height (n - 1) ∨
      highestFork hf.heights height (n - 1) = 0 ∧ hf.votedForkIndex height n votes = hf.currentForkIndex := by
  induction n generalizing votes with
  | zero => exact .inr ⟨rfl, rfl⟩
  | succ n ih =>
    have hthreshold : hf.forkThreshold n = 0 := by
      have hnone : (hf.heights[n]?.map HardforkT.threshold).getD 0 = 0 := by
        cases hget : hf.heights[n]? with
        | none => rfl
        | some fork => exact hzero fork (List.mem_of_getElem? hget)
      rw [forkThreshold, hnone, UInt8.toNat_zero, Nat.mul_zero]
      rfl
    rw [votedForkIndex, Nat.add_sub_cancel]
    simp only [hthreshold, ge_iff_le, UInt32.zero_le, and_true]
    split_ifs with hstarted
    · left
      cases n with
      | zero => rfl
      | succ n => exact (if_pos hstarted).symm
    · have hskip : highestFork hf.heights height n = highestFork hf.heights height (n - 1) := by
        cases n with
        | zero => rfl
        | succ n => exact if_neg hstarted
      rw [hskip]
      exact ih _

theorem raise_eq (hs : Schedule forks original) {h : ℕ} (hforks : hf.heights = forks)
    (hindex : hf.currentForkIndex = indexAt forks h) (hle : h ≤ height) :
    hf.raise height = hf.setForkIndex (indexAt forks height) := by
  subst hforks
  have hmono : indexAt hf.heights h ≤ indexAt hf.heights height := highestFork_mono hle _
  have hlt := hs.index_lt (hs.indexAt_lt height)
  have hcur := hs.index_lt (hs.indexAt_lt h)
  have hvoted : hf.getVotedForkIndex height = indexAt hf.heights height ∨
      indexAt hf.heights height = 0 ∧ hf.getVotedForkIndex height = hf.currentForkIndex :=
    votedForkIndex_eq hs.threshold _ _
  unfold raise
  dsimp only
  split_ifs with hgt
  · rcases hvoted with hvoted | ⟨-, hvoted⟩
    · rw [hvoted, Nat.mod_eq_of_lt hlt]
    · rw [hvoted, hindex, Nat.mod_eq_of_lt hcur] at hgt
      exact absurd hgt (lt_irrefl _)
  · have hsame : hf.currentForkIndex = indexAt hf.heights height := by
      rcases hvoted with hvoted | ⟨hzero, -⟩
      · rw [hvoted, Nat.mod_eq_of_lt hlt] at hgt
        omega
      · omega
    rw [← hsame]
    rfl

theorem Tracks.of_raise (hf : HardFork) (hs : Schedule forks original) {h : ℕ} (hforks : hf.heights = forks)
    (horiginal : hf.originalVersion = original) (hindex : hf.currentForkIndex = indexAt forks h) (hle : h ≤ height)
    (hblocks : ∀ {k b}, hf.db.blocks[k]? = some b →
      b.majorVersion = versionAt forks k ∧ versionAt forks k ≤ getBlockVote b)
    (hstored : ∀ k < hf.db.height, k ≠ height → hf.db.hardForkVersions k = some (versionAt forks k))
    (hversions : hf.versions ≠ []) :
    Tracks forks original height (hf.raise height) ∧ (hf.raise height).db = hf.db := by
  rw [raise_eq hs hforks hindex hle]
  exact ⟨⟨hforks, horiginal, rfl, hblocks, hstored, fun _ => hversions⟩, rfl⟩

theorem Tracks.doCheck_iff {h : ℕ} (ht : Tracks forks original h hf) (b : BlockHeader) :
    hf.doCheck b.majorVersion (getBlockVote b) = true ↔
      b.majorVersion = versionAt forks h ∧ versionAt forks h ≤ getBlockVote b := by
  rw [doCheck, ht.index, ht.heights, Bool.and_eq_true, decide_eq_true_iff, decide_eq_true_iff]
  rfl

theorem Tracks.addHeader (hs : Schedule forks original) {h : ℕ} (ht : Tracks forks original h hf) {b : BlockHeader}
    (hb : hf.db.blocks[h]? = some b) :
    Tracks forks original (h + 1) (hf.addHeader b h).1 ∧ (hf.addHeader b h).1.db.blocks = hf.db.blocks := by
  have hcheck : hf.doCheck b.majorVersion (getBlockVote b) = true := (ht.doCheck_iff b).mpr (ht.blocks hb)
  have hstored : ∀ k < hf.db.height, k ≠ h + 1 →
      (hf.storeVersion h).db.hardForkVersions k = some (versionAt forks k) := by
    intro k hk _
    change Function.update hf.db.hardForkVersions h _ k = _
    by_cases hkh : k = h
    · rw [hkh, Function.update_self, ht.index, ht.heights]
      rfl
    · rw [Function.update_of_ne hkh]
      exact ht.stored k hk hkh
  obtain ⟨htracks, hdb⟩ := Tracks.of_raise ((hf.storeVersion h).recordVote (getBlockVote b)) hs ht.heights ht.original
    ht.index h.le_succ ht.blocks hstored (List.append_ne_nil_of_right_ne_nil _ (List.cons_ne_nil _ _))
  have hblocks : (((hf.storeVersion h).recordVote (getBlockVote b)).raise (h + 1)).db.blocks = hf.db.blocks := by
    rw [hdb]
    rfl
  rw [HardFork.addHeader, HardFork.add, hcheck]
  exact ⟨htracks, hblocks⟩

theorem Tracks.addHeaders (hs : Schedule forks original) {h : ℕ} (ht : Tracks forks original h hf)
    {blocks : List BlockHeader} (hblocks : hf.db.blocks.drop h = blocks) :
    Tracks forks original (h + blocks.length) (addHeaders h blocks hf) ∧
      (HardFork.addHeaders h blocks hf).db.blocks = hf.db.blocks := by
  induction blocks generalizing h hf with
  | nil => exact ⟨ht, rfl⟩
  | cons b rest ih =>
    have hb : hf.db.blocks[h]? = some b := by
      rw [← List.head?_drop, hblocks]
      rfl
    obtain ⟨hnext, hsame⟩ := ht.addHeader hs hb
    have hrest : (hf.addHeader b h).1.db.blocks.drop (h + 1) = rest := by
      rw [hsame, ← List.tail_drop, hblocks]
      rfl
    obtain ⟨hfinal, hfinal'⟩ := ih hnext hrest
    rw [HardFork.addHeaders, List.length_cons, Nat.add_comm rest.length, ← Nat.add_assoc]
    exact ⟨hfinal, hfinal'.trans hsame⟩

theorem pushVotes_spec (blocks : List BlockHeader) (hf : HardFork) :
    (hf.pushVotes blocks).heights = hf.heights ∧ (hf.pushVotes blocks).originalVersion = hf.originalVersion ∧
      (hf.pushVotes blocks).currentForkIndex = hf.currentForkIndex ∧ (hf.pushVotes blocks).db = hf.db ∧
      ((hf.pushVotes blocks).versions = [] → blocks = [] ∧ hf.versions = []) := by
  induction blocks generalizing hf with
  | nil => exact ⟨rfl, rfl, rfl, rfl, fun h => ⟨rfl, h⟩⟩
  | cons b rest ih =>
    obtain ⟨hheights, horiginal, hindex, hdb, hversions⟩ := ih (hf.pushVersion (hf.getEffectiveVersion (getBlockVote b)))
    refine ⟨hheights, horiginal, hindex, hdb, fun h => ?_⟩
    have hnil : hf.versions ++ [hf.getEffectiveVersion (getBlockVote b)] = [] := (hversions h).2
    exact absurd hnil (List.append_ne_nil_of_right_ne_nil _ (List.cons_ne_nil _ _))

structure Recorded (forks : List HardforkT) (db : ForkDb) : Prop where
  blocks : ∀ {k b}, db.blocks[k]? = some b → b.majorVersion = versionAt forks k ∧ versionAt forks k ≤ getBlockVote b
  stored : ∀ k < db.height, db.hardForkVersions k = some (versionAt forks k)

theorem Tracks.recorded (ht : Tracks forks original hf.db.height hf) : Recorded forks hf.db :=
  ⟨ht.blocks, fun k hk => ht.stored k hk hk.ne⟩

theorem Recorded.rescanFromBlockHeight (hs : Schedule forks original) (hr : Recorded forks hf.db)
    (hforks : hf.heights = forks) (horiginal : hf.originalVersion = original) (hlt : height < hf.db.height) :
    ∃ hf', hf.rescanFromBlockHeight height = some (hf', true) ∧ Tracks forks original hf'.db.height hf' ∧
      hf'.db = hf.db := by
  rw [HardFork.rescanFromBlockHeight, if_neg (not_le.mpr hlt)]
  obtain ⟨hheights, horig, -, hdb, hversions⟩ := pushVotes_spec (hf.db.blocks.drop height) hf.clearVotes
  have hne : (hf.clearVotes.pushVotes (hf.db.blocks.drop height)).versions ≠ [] := by
    intro hnil
    have hdrop := List.drop_eq_nil_iff.mp (hversions hnil).1
    exact absurd hlt (not_lt.mpr hdrop)
  generalize hf.clearVotes.pushVotes (hf.db.blocks.drop height) = scanned at *
  have hforks' : scanned.heights = forks := hheights.trans hforks
  have hdb' : scanned.db = hf.db := hdb
  rw [← hdb'] at hr hlt
  have hstored := hr.stored (scanned.db.height - 1) (by omega)
  have hseek : seekVersion (versionAt forks (scanned.db.height - 1)) scanned.heights =
      indexAt forks (scanned.db.height - 1) := by
    rw [hforks']
    exact seekVersion_eq hs.version_lt (hs.indexAt_lt _)
  simp only [hstored, Option.bind_eq_bind, Option.bind_some, hseek]
  obtain ⟨htracks, hsame⟩ := Tracks.of_raise
    (scanned.setForkIndex (indexAt forks (scanned.db.height - 1))) hs hforks' (horig.trans horiginal) rfl
    (Nat.sub_le scanned.db.height 1) hr.blocks (fun k hk _ => hr.stored k hk) hne
  exact ⟨_, rfl, by rw [hsame]; exact htracks, hsame.trans hdb'⟩

theorem Recorded.init (hs : Schedule forks original) (hr : Recorded forks hf.db) (hforks : hf.heights = forks)
    (horiginal : hf.originalVersion = original) :
    ∃ hf', hf.init = some hf' ∧ Tracks forks original hf'.db.height hf' ∧ hf'.db = hf.db := by
  have hpos := hf.windowSize_pos
  obtain ⟨k, hk, hlt⟩ : ∃ k, (if hf.db.height > hf.windowSize then hf.db.height - (hf.windowSize - 1) else 1) = k + 1 ∧
      (hf.db.height ≠ 0 → k < hf.db.height) := by
    by_cases hwindow : hf.db.height > hf.windowSize
    · exact ⟨hf.db.height - hf.windowSize, by rw [if_pos hwindow]; omega, by omega⟩
    · exact ⟨0, if_neg hwindow, Nat.pos_of_ne_zero⟩
  have hdefault : hf.withDefault = hf := if_neg (hforks ▸ hs.ne_nil)
  rw [HardFork.init, hk, hdefault, rescanFromChainHeight, if_neg k.succ_ne_zero, Nat.add_sub_cancel]
  by_cases hzero : hf.db.height = 0
  · refine ⟨hf.clearVotes.setForkIndex 0, ?_,
      ⟨hforks, horiginal, ?_, hr.blocks, fun k hk _ => hr.stored k hk, ?_⟩, rfl⟩
    · have hge : k ≥ (hf.clearVotes.setForkIndex 0).db.height := hzero.trans_le k.zero_le
      rw [HardFork.rescanFromBlockHeight, if_pos hge]
      rfl
    · change 0 = indexAt forks hf.db.height
      rw [hzero, hs.indexAt_zero]
    · intro h
      exact absurd hzero h.ne'
  · have hr' : Recorded forks (hf.clearVotes.setForkIndex 0).db := hr
    obtain ⟨hf', hrescan, ht⟩ := hr'.rescanFromBlockHeight hs hforks horiginal (hlt hzero)
    exact ⟨hf', congrArg (Option.map Prod.fst) hrescan, ht⟩

theorem popVersions_spec {n : ℕ} (hversions : hf.versions ≠ [])
    (hstored : ∀ k < hf.db.height + n, (hf.db.hardForkVersions k).isSome) :
    ∃ hf', popVersions n hf = some hf' ∧ hf'.heights = hf.heights ∧ hf'.originalVersion = hf.originalVersion ∧
      hf'.db = hf.db ∧ hf'.versions ≠ [] := by
  induction n generalizing hf with
  | zero => exact ⟨hf, rfl, rfl, rfl, rfl, hversions⟩
  | succ n ih =>
    obtain ⟨old, hold⟩ := Option.isSome_iff_exists.mp (List.getLast?_isSome.mpr hversions)
    obtain ⟨version, hversion⟩ := Option.isSome_iff_exists.mp (hstored (hf.db.height + n) (by omega))
    rw [popVersions, hold]
    simp only [Option.bind_eq_bind, Option.bind_some, hversion]
    exact ih (List.cons_ne_nil _ _) fun k hk => hstored k (Nat.lt_succ_of_lt hk)

theorem Tracks.onBlockPopped (ht : Tracks forks original hf.db.height hf) {nblocks : ℕ} (hpos : 0 < nblocks)
    (hlt : nblocks < hf.db.height) :
    ∃ hf', (hf.withBlocks (hf.db.blocks.take (hf.db.height - nblocks))).onBlockPopped nblocks = some hf' ∧
      Tracks forks original hf'.db.height hf' ∧ hf'.db.blocks = hf.db.blocks.take (hf.db.height - nblocks) := by
  have hheight : (hf.withBlocks (hf.db.blocks.take (hf.db.height - nblocks))).db.height = hf.db.height - nblocks := by
    change (hf.db.blocks.take _).length = _
    rw [List.length_take]
    exact min_eq_left (Nat.sub_le _ _)
  have hsome : ∀ k < (hf.withBlocks (hf.db.blocks.take (hf.db.height - nblocks))).db.height + nblocks,
      ((hf.withBlocks (hf.db.blocks.take (hf.db.height - nblocks))).db.hardForkVersions k).isSome := by
    intro k hk
    have hstored := ht.recorded.stored k (by omega)
    exact Option.isSome_iff_exists.mpr ⟨_, hstored⟩
  have hne : (hf.withBlocks (hf.db.blocks.take (hf.db.height - nblocks))).versions ≠ [] := ht.versions (by omega)
  obtain ⟨hf', hpop, hheights, horiginal, hdb, hversions⟩ := popVersions_spec hne hsome
  rw [HardFork.onBlockPopped, if_neg hpos.ne', hpop]
  have hforks : hf'.heights = forks := hheights.trans ht.heights
  refine ⟨_, rfl, ⟨hforks, horiginal.trans ht.original, ?_, ?_, ?_, fun _ => hversions⟩, congrArg ForkDb.blocks hdb⟩
  · change highestFork hf'.heights _ (hf'.heights.length - 1) = _
    rw [hforks]
    rfl
  · intro k b hb
    change hf'.db.blocks[k]? = some b at hb
    rw [hdb] at hb
    change (hf.db.blocks.take _)[k]? = some b at hb
    rw [List.getElem?_take] at hb
    split_ifs at hb
    exact ht.blocks hb
  · intro k hk _
    change k < hf'.db.height at hk
    change hf'.db.hardForkVersions k = _
    rw [hdb] at hk ⊢
    exact ht.recorded.stored k (by omega)

theorem Tracks.rewind (hs : Schedule forks original) (ht : Tracks forks original hf.db.height hf)
    (hlt : height < hf.db.height) :
    Tracks forks original (height + 1) (hf.rewind height (versionAt forks height)) ∧
      (hf.rewind height (versionAt forks height)).db = hf.db := by
  have hlower : lowerTo hf.heights (versionAt forks height) hf.currentForkIndex = indexAt forks height := by
    rw [ht.heights, ht.index]
    exact hs.lowerTo_eq (highestFork_mono hlt.le _) (hs.indexAt_lt _)
  rw [HardFork.rewind, hlower]
  generalize hwindow : (hf.db.blocks.take (height + 1)).drop _ = window
  obtain ⟨hheights, horig, hindex, hdb, hversions⟩ := pushVotes_spec window (hf.clearVotes.setForkIndex (indexAt forks height))
  have hne : window ≠ [] := by
    rw [← hwindow, ne_eq, List.drop_eq_nil_iff, List.length_take, not_le, lt_min_iff]
    change _ ∧ _ < hf.db.height
    split_ifs <;> omega
  obtain ⟨htracks, hsame⟩ := Tracks.of_raise _ hs (hheights.trans ht.heights) (horig.trans ht.original) hindex
    height.le_succ (by rw [hdb]; exact ht.blocks) (by rw [hdb]; exact fun k hk _ => ht.recorded.stored k hk)
    fun hnil => hne (hversions hnil).1
  exact ⟨htracks, hsame.trans hdb⟩

theorem Tracks.reorganizeFromBlockHeight (hs : Schedule forks original) (ht : Tracks forks original hf.db.height hf)
    (hlt : height < hf.db.height) :
    ∃ hf', hf.reorganizeFromBlockHeight height = some (hf', true) ∧ Tracks forks original hf'.db.height hf' ∧
      hf'.db.blocks = hf.db.blocks := by
  have hstart : hf.startVersion height = some (versionAt forks height) := by
    rw [startVersion]
    split_ifs with hzero
    · rw [hzero, hs.versionAt_zero, ht.original]
    · exact ht.recorded.stored height hlt
  obtain ⟨hrewind, hdb⟩ := ht.rewind hs hlt
  obtain ⟨hfinal, hblocks⟩ := hrewind.addHeaders hs (congrArg (fun db => db.blocks.drop (height + 1)) hdb)
  rw [HardFork.reorganizeFromBlockHeight, if_neg (not_le.mpr hlt), hstart]
  refine ⟨_, rfl, ?_, hblocks.trans (congrArg ForkDb.blocks hdb)⟩
  have hheight : height + 1 + (hf.db.blocks.drop (height + 1)).length = hf.db.height := by
    rw [List.length_drop]
    change height + 1 + (hf.db.height - _) = _
    omega
  rw [hheight] at hfinal
  rw [ForkDb.height, hblocks, hdb]
  exact hfinal

theorem Tracks.withBlocks (ht : Tracks forks original hf.db.height hf) {b : BlockHeader} (hcheck : hf.check b = true) :
    Tracks forks original hf.db.height (hf.withBlocks (hf.db.blocks ++ [b])) where
  heights := ht.heights
  original := ht.original
  index := ht.index
  blocks := by
    intro k b' hb'
    change (hf.db.blocks ++ [b])[k]? = some b' at hb'
    rcases Nat.lt_or_ge k hf.db.blocks.length with hk | hk
    · rw [List.getElem?_append_left hk] at hb'
      exact ht.blocks hb'
    · rw [List.getElem?_append_right hk, List.getElem?_singleton] at hb'
      split_ifs at hb' with hzero
      cases hb'
      have hkh : k = hf.db.height := le_antisymm (Nat.sub_eq_zero_iff_le.mp hzero) hk
      rw [hkh]
      exact (ht.doCheck_iff b).mp hcheck
  stored := by
    intro k hk hne
    change k < (hf.db.blocks ++ [b]).length at hk
    rw [List.length_append, List.length_singleton] at hk
    exact ht.recorded.stored k (lt_of_le_of_ne (Nat.le_of_lt_succ hk) hne)
  versions := ht.versions

def blocksAfter (hf : HardFork) : ForkOp → List BlockHeader
  | .addBlock b => if hf.check b then hf.db.blocks ++ [b] else hf.db.blocks
  | .pop nblocks =>
    if 0 < nblocks ∧ nblocks < hf.db.height then hf.db.blocks.take (hf.db.height - nblocks) else hf.db.blocks
  | .reorganizeFromChainHeight _ => hf.db.blocks
  | .init => hf.db.blocks

theorem Tracks.step (hs : Schedule forks original) (ht : Tracks forks original hf.db.height hf) (op : ForkOp) :
    ∃ hf', hf.step op = some hf' ∧ Tracks forks original hf'.db.height hf' ∧ hf'.db.blocks = hf.blocksAfter op := by
  cases op with
  | addBlock b =>
    rw [HardFork.step, blocksAfter]
    split_ifs with hcheck
    · have hget : (hf.withBlocks (hf.db.blocks ++ [b])).db.blocks[hf.db.height]? = some b := List.getElem?_concat_length
      obtain ⟨hnext, hblocks⟩ := (ht.withBlocks hcheck).addHeader hs hget
      refine ⟨_, rfl, ?_, hblocks⟩
      rw [ForkDb.height, hblocks]
      change Tracks forks original (hf.db.blocks ++ [b]).length _
      rw [List.length_append]
      exact hnext
    · exact ⟨hf, rfl, ht, rfl⟩
  | pop nblocks =>
    rw [HardFork.step, blocksAfter]
    split_ifs with hn
    · exact ht.onBlockPopped hn.1 hn.2
    · exact ⟨hf, rfl, ht, rfl⟩
  | reorganizeFromChainHeight height =>
    rw [HardFork.step, HardFork.reorganizeFromChainHeight]
    split_ifs with hzero
    · exact ⟨hf, rfl, ht, rfl⟩
    · by_cases hlt : height - 1 < hf.db.height
      · obtain ⟨hf', hreorganize, ht', hblocks⟩ := ht.reorganizeFromBlockHeight hs hlt
        exact ⟨hf', congrArg (Option.map Prod.fst) hreorganize, ht', hblocks⟩
      · rw [HardFork.reorganizeFromBlockHeight, if_pos (not_lt.mp hlt)]
        exact ⟨hf, rfl, ht, rfl⟩
  | init =>
    obtain ⟨hf', hinit, ht', hdb⟩ := ht.recorded.init hs ht.heights ht.original
    exact ⟨hf', hinit, ht', congrArg ForkDb.blocks hdb⟩

theorem Tracks.run (hs : Schedule forks original) (ht : Tracks forks original hf.db.height hf) (ops : List ForkOp) :
    ∃ hf', hf.run ops = some hf' ∧ Tracks forks original hf'.db.height hf' := by
  induction ops generalizing hf with
  | nil => exact ⟨hf, rfl, ht⟩
  | cons op ops ih =>
    obtain ⟨hf₁, hstep, ht₁, -⟩ := ht.step hs op
    obtain ⟨hf₂, hrun, ht₂⟩ := ih ht₁
    exact ⟨hf₂, by rw [HardFork.run, hstep, Option.bind_some, hrun], ht₂⟩

def Later (a b : HardforkT) : Prop := a.version < b.version ∧ a.height < b.height ∧ a.time < b.time

theorem addForks_spec {hf' : HardFork} (h : hf.addForks forks = some hf') (hchain : hf.heights.IsChain Later) :
    hf'.heights = hf.heights ++ forks ∧ hf'.heights.IsChain Later ∧ hf'.originalVersion = hf.originalVersion ∧
      hf'.db = hf.db := by
  induction forks generalizing hf with
  | nil =>
    cases h
    exact ⟨(List.append_nil _).symm, hchain, rfl, rfl⟩
  | cons fork forks ih =>
    obtain ⟨hf₁, hadd, hrest⟩ := Option.bind_eq_some_iff.mp h
    rw [addFork] at hadd
    split_ifs at hadd with hzero hlast hthreshold
    cases hadd
    have hchain₁ : (hf.heights ++ [fork]).IsChain Later := by
      refine List.isChain_append.mpr ⟨hchain, List.isChain_singleton fork, ?_⟩
      intro last hmem next hnext
      cases hnext
      rw [Option.mem_def] at hmem
      rw [hmem] at hlast
      simpa [Later, not_or, and_assoc] using hlast
    obtain ⟨hheights, hchain', horiginal, hdb⟩ := ih hrest hchain₁
    refine ⟨?_, hchain', horiginal, hdb⟩
    rw [hheights]
    exact List.append_assoc _ _ _

theorem Schedule.of_isChain (hne : forks ≠ []) (hchain : forks.IsChain Later) (hzero : ∀ fork ∈ forks, fork.threshold = 0)
    (hfirst : forks.head?.map HardforkT.version = some original) : Schedule forks original := by
  have htrans : ∀ {a b c : HardforkT}, Later a b → Later b c → Later a c := fun hab hbc =>
    ⟨UInt8.lt_trans hab.1 hbc.1, hab.2.1.trans hbc.2.1, hab.2.2.trans hbc.2.2⟩
  have hlater : ∀ {m n} (hmn : m < n) (hn : n < forks.length), Later (forks[m]) forks[n] := by
    intro m n hmn hn
    have : IsTrans HardforkT Later := ⟨fun _ _ _ => htrans⟩
    exact List.pairwise_iff_getElem.mp (List.isChain_iff_pairwise.mp hchain) m n (hmn.trans hn) hn hmn
  refine ⟨hne, ?_, ?_, hzero, ?_⟩
  · intro m n hmn hn
    rw [forkVersion, forkVersion, List.getElem?_eq_getElem hn, List.getElem?_eq_getElem (hmn.trans hn)]
    exact (hlater hmn hn).1
  · intro m n hmn hn
    rw [forkHeight, forkHeight, List.getElem?_eq_getElem hn, List.getElem?_eq_getElem (hmn.trans hn)]
    exact (hlater hmn hn).2.1
  · rw [forkVersion, ← List.head?_eq_getElem?, hfirst]
    rfl

theorem tracks_of_run {base started : HardFork} {forks : List HardforkT} (ops : List ForkOp)
    (hnew : base.heights = [] ∧ base.db.blocks = []) (hforks : base.addForks forks = some started)
    (hzero : ∀ fork ∈ forks, fork.threshold = 0)
    (hfirst : forks.head?.map HardforkT.version = some base.originalVersion) :
    Schedule forks base.originalVersion ∧
      ∃ hf, started.run (.init :: ops) = some hf ∧ Tracks forks base.originalVersion hf.db.height hf := by
  obtain ⟨hheights, hchain, horiginal, hdb⟩ := addForks_spec hforks (by rw [hnew.1]; exact List.isChain_nil)
  rw [hnew.1, List.nil_append] at hheights
  have hne : forks ≠ [] := by
    rintro rfl
    cases hfirst
  have hs : Schedule forks base.originalVersion := .of_isChain hne (hheights ▸ hchain) hzero hfirst
  have hr : Recorded forks started.db := by
    rw [hdb]
    refine ⟨fun hb => ?_, fun k hk => ?_⟩
    · rw [hnew.2] at hb
      cases hb
    · rw [ForkDb.height, hnew.2] at hk
      cases hk
  obtain ⟨hf₁, hinit, ht₁, -⟩ := hr.init hs hheights horiginal
  obtain ⟨hf, hrun, ht⟩ := ht₁.run hs ops
  refine ⟨hs, hf, ?_, ht⟩
  rw [HardFork.run, HardFork.step, hinit]
  exact hrun

theorem Tracks.getCurrentVersion_eq {h : ℕ} (ht : Tracks forks original h hf) :
    hf.getCurrentVersion = versionAt forks h := by
  rw [getCurrentVersion, ht.index, ht.heights]
  rfl

theorem Tracks.getIdealVersion_eq {h : ℕ} (hs : Schedule forks original) (ht : Tracks forks original h hf) (height : ℕ) :
    hf.getIdealVersion height = versionAt forks height := by
  rw [HardFork.getIdealVersion_eq (by rw [ht.heights, ht.original]; exact hs), ht.heights]

theorem getCurrentVersion_eq_getIdealVersion (base started : HardFork) (forks : List HardforkT) (ops : List ForkOp)
    (hnew : base.heights = [] ∧ base.db.blocks = []) (hforks : base.addForks forks = some started)
    (hzero : ∀ fork ∈ forks, fork.threshold = 0)
    (hfirst : forks.head?.map HardforkT.version = some base.originalVersion) :
    ∃ hf, started.run (.init :: ops) = some hf ∧ hf.getCurrentVersion = hf.getIdealVersion hf.db.height := by
  obtain ⟨hs, hf, hrun, ht⟩ := tracks_of_run ops hnew hforks hzero hfirst
  refine ⟨hf, hrun, ?_⟩
  rw [ht.getCurrentVersion_eq, ht.getIdealVersion_eq hs]

def mainnetObject : HardFork where
  db := ⟨[], fun _ => none⟩
  windowSize := 10080
  windowSize_pos := by decide
  defaultThresholdPercent := 80
  originalVersion := 1
  heights := []
  versions := []
  lastVersions := fun _ => 0
  currentForkIndex := 0

theorem getCurrentVersion_eq_getIdealVersion_mainnet :
    ∃ hf, ({ mainnetObject with heights := mainnetHardForks } : HardFork).run
        [.init, .addBlock ⟨1, 1, 0, default, 0⟩, .addBlock ⟨1, 16, 0, default, 0⟩, .addBlock ⟨2, 16, 0, default, 0⟩, .pop 1,
          .reorganizeFromChainHeight 1] = some hf ∧ hf.getCurrentVersion = hf.getIdealVersion hf.db.height :=
  getCurrentVersion_eq_getIdealVersion mainnetObject _ mainnetHardForks _ ⟨rfl, rfl⟩ (by rfl) (by decide) (by rfl)

def ChainVersions (hf : HardFork) : Prop :=
  ∀ k b, hf.db.blocks[k]? = some b → b.majorVersion = hf.getIdealVersion k ∧ hf.db.hardForkVersions k = some b.majorVersion ∧
    ∀ j a, j ≤ k → hf.db.blocks[j]? = some a → a.majorVersion ≤ b.majorVersion

theorem chain_has_scheduled_versions (base started : HardFork) (forks : List HardforkT) (ops : List ForkOp)
    (hnew : base.heights = [] ∧ base.db.blocks = []) (hforks : base.addForks forks = some started)
    (hzero : ∀ fork ∈ forks, fork.threshold = 0)
    (hfirst : forks.head?.map HardforkT.version = some base.originalVersion) :
    ∃ hf, started.run (.init :: ops) = some hf ∧ hf.ChainVersions := by
  obtain ⟨hs, hf, hrun, ht⟩ := tracks_of_run ops hnew hforks hzero hfirst
  refine ⟨hf, hrun, fun k b hb => ?_⟩
  have hlt : k < hf.db.height := (List.getElem?_eq_some_iff.mp hb).1
  have hversion := (ht.blocks hb).1
  refine ⟨hversion.trans (ht.getIdealVersion_eq hs k).symm, hversion ▸ ht.stored k hlt hlt.ne, fun j a hj ha => ?_⟩
  rw [hversion, (ht.blocks ha).1]
  rcases (highestFork_mono hj (forks.length - 1)).eq_or_lt with heq | hindex
  · exact UInt8.le_of_eq (congrArg (forkVersion forks) heq)
  · exact UInt8.le_of_lt (hs.version_lt hindex (hs.indexAt_lt k))

theorem chain_has_scheduled_versions_mainnet :
    ∃ hf, ({ mainnetObject with heights := mainnetHardForks } : HardFork).run
        [.init, .addBlock ⟨1, 1, 0, default, 0⟩] = some hf ∧ hf.ChainVersions :=
  chain_has_scheduled_versions mainnetObject _ mainnetHardForks _ ⟨rfl, rfl⟩ (by rfl) (by decide) (by rfl)

end Velkavo.Cryptonote.HardFork
