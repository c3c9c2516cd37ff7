import Velkavo.HardForks.ActiveVersion

/-! The voting window next to the votes in the database, for schedules with any thresholds. -/

namespace Velkavo.Cryptonote.HardFork

def Counted (last : UInt8 → UInt32) (votes : List UInt8) : Prop := ∀ v, last v = UInt32.ofNat (votes.count v)

section

variable {last : UInt8 → UInt32} {votes votes' : List UInt8} {vote : UInt8}

theorem Counted.insert (h : Counted last votes) (hperm : votes'.Perm (vote :: votes)) :
    Counted (Function.update last vote (last vote + 1)) votes' := by
  intro v
  rw [hperm.count_eq]
  by_cases hv : v = vote
  · rw [hv, Function.update_self, List.count_cons_self, h vote, UInt32.ofNat_add]
    rfl
  · rw [Function.update_of_ne hv, List.count_cons_of_ne (Ne.symm hv)]
    exact h v

theorem Counted.remove (h : Counted last votes) (hperm : votes.Perm (vote :: votes')) :
    Counted (Function.update last vote (last vote - 1)) votes' := by
  intro v
  have hlast := h v
  rw [hperm.count_eq] at hlast
  by_cases hv : v = vote
  · rw [hv] at hlast ⊢
    rw [Function.update_self, hlast, List.count_cons_self, UInt32.ofNat_add]
    exact UInt32.add_sub_cancel _ _
  · rw [Function.update_of_ne hv, hlast, List.count_cons_of_ne (Ne.symm hv)]

theorem Counted.makeRoom (h : Counted last votes) (windowSize : ℕ) :
    (makeRoom windowSize votes last).1 = votes.drop (votes.length + 1 - windowSize) ∧
      Counted (makeRoom windowSize votes last).2 (HardFork.makeRoom windowSize votes last).1 := by
  induction votes generalizing last with
  | nil => exact ⟨List.drop_nil.symm, h⟩
  | cons old rest ih =>
    rw [HardFork.makeRoom]
    split_ifs with hfull
    · obtain ⟨hrest, hcounted⟩ := ih (h.remove (List.Perm.refl _))
      have hlength : (old :: rest).length + 1 - windowSize = rest.length + 1 - windowSize + 1 := by
        rw [List.length_cons] at hfull ⊢
        omega
      rw [hlength, List.drop_succ_cons]
      exact ⟨hrest, hcounted⟩
    · have hlength : (old :: rest).length + 1 - windowSize = 0 := by omega
      rw [hlength, List.drop_zero]
      exact ⟨rfl, h⟩

end

variable (hf : HardFork)

def effectiveVotes (blocks : List BlockHeader) : List UInt8 :=
  blocks.map fun b => hf.getEffectiveVersion (getBlockVote b)

def windowVotes : List UInt8 := hf.effectiveVotes (hf.db.blocks.drop (hf.db.height - hf.windowSize))

structure HoldsVotes : Prop where
  versions : hf.versions = hf.windowVotes
  lastVersions : Counted hf.lastVersions hf.windowVotes

structure Reinitializes : Prop where
  init : ∃ hf', hf.init = some hf' ∧ hf'.versions = hf.versions ∧ hf'.lastVersions = hf.lastVersions

structure WellFormed : Prop where
  heights : hf.heights ≠ []
  stored : ∀ k < hf.db.height, (hf.db.hardForkVersions k).isSome
  versions : 0 < hf.db.height → hf.versions ≠ []
  counted : Counted hf.lastVersions hf.versions

def PopRefills (nblocks : ℕ) : Prop :=
  hf.windowSize + nblocks ≤ hf.db.height ∧ ∀ i < min nblocks hf.windowSize,
    hf.db.hardForkVersions (hf.db.height - nblocks + i) =
      (hf.effectiveVotes hf.db.blocks)[hf.db.height - nblocks - hf.windowSize + i]?

def StepRefills : ForkOp → Prop
  | .pop nblocks => 0 < nblocks ∧ nblocks < hf.db.height → hf.PopRefills nblocks
  | _ => True

variable {hf}

theorem effectiveVotes_congr {hf' : HardFork} (hheights : hf'.heights = hf.heights) :
    hf'.effectiveVotes = hf.effectiveVotes := by
  funext blocks
  refine List.map_congr_left fun b _ => ?_
  rw [getEffectiveVersion, getEffectiveVersion, hheights]

theorem HoldsVotes.of_versions (hw : hf.WellFormed) (h : hf.versions = hf.windowVotes) : hf.HoldsVotes :=
  ⟨h, h ▸ hw.counted⟩

section

theorem pushVotes_versions (blocks : List BlockHeader) (hf : HardFork) :
    (hf.pushVotes blocks).versions = hf.versions ++ hf.effectiveVotes blocks := by
  induction blocks generalizing hf with
  | nil => exact (List.append_nil _).symm
  | cons b rest ih =>
    refine (ih (hf.pushVersion (hf.getEffectiveVersion (getBlockVote b)))).trans ?_
    exact List.append_assoc _ _ _

theorem pushVotes_windowSize (blocks : List BlockHeader) (hf : HardFork) :
    (hf.pushVotes blocks).windowSize = hf.windowSize := by
  induction blocks generalizing hf with
  | nil => rfl
  | cons b rest ih => exact ih _

theorem pushVotes_counted (blocks : List BlockHeader) (hf : HardFork) (h : Counted hf.lastVersions hf.versions) :
    Counted (hf.pushVotes blocks).lastVersions (hf.pushVotes blocks).versions := by
  induction blocks generalizing hf with
  | nil => exact h
  | cons b rest ih => exact ih _ (h.insert (List.perm_append_singleton _ _))

theorem raise_votes (height : ℕ) (hf : HardFork) :
    (hf.raise height).versions = hf.versions ∧ (hf.raise height).lastVersions = hf.lastVersions ∧
      (hf.raise height).db = hf.db ∧ (hf.raise height).heights = hf.heights ∧
      (hf.raise height).windowSize = hf.windowSize := by
  rw [raise]
  split_ifs <;> exact ⟨rfl, rfl, rfl, rfl, rfl⟩

theorem counted_zero : Counted (fun _ => 0) [] := fun _ => rfl

theorem rescanFromBlockHeight_votes {height : ℕ} (hlt : height < hf.db.height)
    (hstored : ∀ k < hf.db.height, (hf.db.hardForkVersions k).isSome) :
    ∃ hf', hf.rescanFromBlockHeight height = some (hf', true) ∧ hf'.db = hf.db ∧ hf'.heights = hf.heights ∧
      hf'.windowSize = hf.windowSize ∧ hf'.versions = hf.effectiveVotes (hf.db.blocks.drop height) ∧
      Counted hf'.lastVersions hf'.versions := by
  rw [rescanFromBlockHeight, if_neg (not_le.mpr hlt)]
  obtain ⟨hheights, -, -, hdb, -⟩ := pushVotes_spec (hf.db.blocks.drop height) hf.clearVotes
  have hwindow := pushVotes_windowSize (hf.db.blocks.drop height) hf.clearVotes
  have hversions := pushVotes_versions (hf.db.blocks.drop height) hf.clearVotes
  have hcounted := pushVotes_counted (hf.db.blocks.drop height) hf.clearVotes counted_zero
  generalize hf.clearVotes.pushVotes (hf.db.blocks.drop height) = scanned at *
  have hdb' : scanned.db = hf.db := hdb
  obtain ⟨lastv, hlastv⟩ := Option.isSome_iff_exists.mp (hstored (hf.db.height - 1) (by omega))
  rw [← hdb'] at hlastv
  simp only [hlastv, Option.bind_eq_bind, Option.bind_some]
  obtain ⟨hv, hl, hd, hh, hw⟩ := raise_votes scanned.db.height (scanned.setForkIndex (seekVersion lastv scanned.heights))
  refine ⟨_, rfl, hd.trans hdb', hh.trans hheights, hw.trans hwindow, hv.trans hversions, ?_⟩
  rw [hl, hv]
  exact hcounted

theorem withDefault_spec (hf : HardFork) :
    hf.withDefault.heights ≠ [] ∧ hf.withDefault.db = hf.db ∧ hf.withDefault.windowSize = hf.windowSize := by
  rw [withDefault]
  split_ifs with hnil
  · exact ⟨List.cons_ne_nil _ _, rfl, rfl⟩
  · exact ⟨hnil, rfl, rfl⟩

theorem init_start (hf : HardFork) :
    (if hf.db.height > hf.windowSize then hf.db.height - (hf.windowSize - 1) else 1) =
      hf.db.height - hf.windowSize + 1 := by
  have hpos := hf.windowSize_pos
  split_ifs <;> omega

theorem init_votes (hstored : ∀ k < hf.db.height, (hf.db.hardForkVersions k).isSome) :
    ∃ hf', hf.init = some hf' ∧ hf'.WellFormed ∧ hf'.HoldsVotes ∧ hf'.db = hf.db ∧
      hf'.heights = hf.withDefault.heights ∧ hf'.windowSize = hf.windowSize := by
  have hpos := hf.windowSize_pos
  obtain ⟨hne, hdb, hwindow⟩ := hf.withDefault_spec
  rw [init, init_start, rescanFromChainHeight, if_neg (Nat.succ_ne_zero _), Nat.add_sub_cancel]
  generalize hf.withDefault = named at *
  by_cases hzero : hf.db.height = 0
  · have hge : hf.db.height - hf.windowSize ≥ (named.clearVotes.setForkIndex 0).db.height := by
      change named.db.height ≤ _
      rw [hdb, hzero]
      exact Nat.zero_le _
    rw [rescanFromBlockHeight, if_pos hge]
    have hw : (named.clearVotes.setForkIndex 0).WellFormed :=
      ⟨hne, fun k hk => by
          change k < named.db.height at hk
          change (named.db.hardForkVersions k).isSome
          rw [hdb] at hk ⊢
          exact hstored k hk,
        fun h => by
          change 0 < named.db.height at h
          rw [hdb, hzero] at h
          exact absurd h (lt_irrefl 0), counted_zero⟩
    have hblocks : named.db.blocks = [] := by
      rw [hdb]
      exact List.eq_nil_of_length_eq_zero hzero
    refine ⟨_, rfl, hw, HoldsVotes.of_versions hw ?_, hdb, rfl, hwindow⟩
    change [] = (named.db.blocks.drop _).map _
    rw [hblocks, List.drop_nil]
    rfl
  · have hlt : hf.db.height - hf.windowSize < (named.clearVotes.setForkIndex 0).db.height := by
      change _ < named.db.height
      rw [hdb]
      omega
    have hstored' : ∀ k < (named.clearVotes.setForkIndex 0).db.height,
        ((named.clearVotes.setForkIndex 0).db.hardForkVersions k).isSome := by
      change ∀ k < named.db.height, (named.db.hardForkVersions k).isSome
      rw [hdb]
      exact hstored
    obtain ⟨hf', hrescan, hdb', hheights', hwindow', hversions, hcounted⟩ := rescanFromBlockHeight_votes hlt hstored'
    have hdb'' : hf'.db = hf.db := hdb'.trans hdb
    have hwindow'' : hf'.windowSize = hf.windowSize := hwindow'.trans hwindow
    have hvotes : hf'.versions = hf'.windowVotes := by
      rw [hversions, windowVotes, effectiveVotes_congr hheights', hdb'', hwindow'']
      change named.effectiveVotes (named.db.blocks.drop _) = _
      rw [hdb]
      rfl
    refine ⟨hf', congrArg (Option.map Prod.fst) hrescan, ⟨hheights' ▸ hne, ?_, ?_, hcounted⟩, ⟨hvotes, hvotes ▸ hcounted⟩,
      hdb'', hheights', hwindow''⟩
    · rw [hdb'']
      exact hstored
    · intro _ hnil
      rw [hversions, effectiveVotes, List.map_eq_nil_iff, List.drop_eq_nil_iff] at hnil
      exact absurd hlt (not_lt.mpr hnil)

theorem windowVotes_congr {hf' : HardFork} (hdb : hf'.db.blocks = hf.db.blocks) (hheights : hf'.heights = hf.heights)
    (hwindow : hf'.windowSize = hf.windowSize) : hf'.windowVotes = hf.windowVotes := by
  rw [windowVotes, windowVotes, effectiveVotes_congr hheights, ForkDb.height, ForkDb.height, hdb, hwindow]

theorem HoldsVotes.reinitializes (hw : hf.WellFormed) (h : hf.HoldsVotes) : hf.Reinitializes := by
  obtain ⟨hf', hinit, -, hvotes, hdb, hheights, hwindow⟩ := init_votes hw.stored
  have hdefault : hf.withDefault = hf := if_neg hw.heights
  have hsame : hf'.windowVotes = hf.windowVotes :=
    windowVotes_congr (congrArg ForkDb.blocks hdb) (hdefault ▸ hheights) hwindow
  refine ⟨hf', hinit, ?_, funext fun v => ?_⟩
  · rw [hvotes.versions, h.versions, hsame]
  · rw [hvotes.lastVersions, h.lastVersions, hsame]

end

section

theorem WellFormed.addBlock (hw : hf.WellFormed) (b : BlockHeader) (hcheck : hf.check b = true) :
    ((hf.withBlocks (hf.db.blocks ++ [b])).addHeader b hf.db.height).1.WellFormed ∧
      (hf.HoldsVotes → ((hf.withBlocks (hf.db.blocks ++ [b])).addHeader b hf.db.height).1.HoldsVotes) := by
  have hroom := hw.counted.makeRoom hf.windowSize
  rw [addHeader, add]
  have hcheck' : (hf.withBlocks (hf.db.blocks ++ [b])).doCheck b.majorVersion (getBlockVote b) = true := hcheck
  rw [hcheck', Bool.not_true, if_neg Bool.false_ne_true]
  dsimp only
  obtain ⟨hv, hl, hd, hh, hwin⟩ := raise_votes (hf.db.height + 1)
    (((hf.withBlocks (hf.db.blocks ++ [b])).storeVersion hf.db.height).recordVote (getBlockVote b))
  generalize (((hf.withBlocks (hf.db.blocks ++ [b])).storeVersion hf.db.height).recordVote (getBlockVote b)).raise
    (hf.db.height + 1) = hf' at *
  have hversions : hf'.versions = hf.versions.drop (hf.versions.length + 1 - hf.windowSize) ++
      [hf.getEffectiveVersion (getBlockVote b)] := by
    rw [← hroom.1]
    exact hv
  have hblocks : hf'.db.blocks = hf.db.blocks ++ [b] := congrArg ForkDb.blocks hd
  have hheight : hf'.db.height = hf.db.height + 1 := by rw [ForkDb.height, hblocks, List.length_append]; rfl
  have hw' : hf'.WellFormed := by
    refine ⟨hh ▸ hw.heights, ?_, ?_, ?_⟩
    · intro k hk
      rw [hd]
      change (Function.update hf.db.hardForkVersions hf.db.height _ k).isSome
      by_cases hk' : k = hf.db.height
      · rw [hk', Function.update_self]
        rfl
      · rw [Function.update_of_ne hk']
        exact hw.stored k (by omega)
    · intro _
      rw [hversions]
      exact List.append_ne_nil_of_right_ne_nil _ (List.cons_ne_nil _ _)
    · rw [hl, hv]
      exact hroom.2.insert (List.perm_append_singleton _ _)
  refine ⟨hw', fun h => HoldsVotes.of_versions hw' ?_⟩
  -- the block that leaves the window is the one whose vote the loop removed
  have hstart : hf.db.height - hf.windowSize + (hf.versions.length + 1 - hf.windowSize) =
      hf.db.height + 1 - hf.windowSize := by
    rw [h.versions, windowVotes, effectiveVotes, List.length_map, List.length_drop, ← ForkDb.height]
    omega
  have hwindow : hf'.windowSize = hf.windowSize := hwin
  have hheights : hf'.heights = hf.heights := hh
  have hle : hf.db.height + 1 - hf.windowSize ≤ hf.db.blocks.length := by
    have hpos := hf.windowSize_pos
    rw [ForkDb.height]
    omega
  rw [windowVotes, effectiveVotes_congr hheights, hheight, hwindow, hblocks, List.drop_append_of_le_length hle,
    hversions, ← hstart, h.versions, windowVotes]
  simp only [effectiveVotes, List.map_append, List.map_drop, List.drop_drop, List.map_cons, List.map_nil]

end

section

theorem popVersions_versions {n : ℕ} {popped : ℕ → UInt8} (hne : hf.versions ≠ [])
    (hcounted : Counted hf.lastVersions hf.versions)
    (hstored : ∀ i < n, hf.db.hardForkVersions (hf.db.height + i) = some (popped i)) :
    ∃ hf', popVersions n hf = some hf' ∧ hf'.db = hf.db ∧ hf'.heights = hf.heights ∧ hf'.windowSize = hf.windowSize ∧
      hf'.versions = ((List.range n).map popped ++ hf.versions).take hf.versions.length ∧
      Counted hf'.lastVersions hf'.versions := by
  induction n generalizing hf with
  | zero => exact ⟨hf, rfl, rfl, rfl, rfl, (List.take_length).symm, hcounted⟩
  | succ n ih =>
    obtain ⟨front, old, hversions⟩ := (List.eq_nil_or_concat' hf.versions).resolve_left hne
    have hlast : hf.versions.getLast? = some old := by rw [hversions, List.getLast?_concat]
    have hfront : hf.versions.dropLast = front := by rw [hversions, List.dropLast_concat]
    have hstep := hstored n n.lt_succ_self
    rw [popVersions, hlast]
    simp only [Option.bind_eq_bind, Option.bind_some, hstep, hfront]
    have hremoved : Counted (Function.update hf.lastVersions old (hf.lastVersions old - 1)) front :=
      hcounted.remove (hversions ▸ List.perm_append_singleton _ _)
    obtain ⟨hf', hpop, hdb, hheights, hwindow, hversions', hcounted'⟩ := @ih
      { hf with
        versions := popped n :: front
        lastVersions := Function.update (Function.update hf.lastVersions old (hf.lastVersions old - 1)) (popped n)
          (Function.update hf.lastVersions old (hf.lastVersions old - 1) (popped n) + 1) }
      (List.cons_ne_nil _ _) (hremoved.insert (List.Perm.refl _)) fun i hi => hstored i (Nat.lt_succ_of_lt hi)
    refine ⟨hf', hpop, hdb, hheights, hwindow, ?_, hcounted'⟩
    rw [hversions', hversions, List.range_succ, List.map_append, ← List.append_assoc _ front, List.length_append]
    have hle : front.length + 1 ≤ ((List.range n).map popped ++ (List.range' n 1).map popped ++ front).length := by
      simp only [List.length_append, List.length_map, List.length_range, List.length_range']
      omega
    refine Eq.trans ?_ (List.take_append_of_le_length hle).symm
    rw [List.append_assoc]
    rfl

theorem take_refilled_iff {α : Type} {votes : List α} {popped : ℕ → α} {n window : ℕ} (hwindow : 0 < window) (hn : 0 < n)
    (hlt : n < votes.length) :
    ((List.range n).map popped ++ votes.drop (votes.length - window)).take (votes.drop (votes.length - window)).length =
        (votes.take (votes.length - n)).drop (votes.length - n - window) ↔
      window + n ≤ votes.length ∧ ∀ i < min n window, some (popped i) = votes[votes.length - n - window + i]? := by
  constructor
  · intro heq
    have hlength := congrArg List.length heq
    simp only [List.length_take, List.length_append, List.length_map, List.length_range, List.length_drop] at hlength
    have hfull : window + n ≤ votes.length := by omega
    refine ⟨hfull, fun i hi => ?_⟩
    have hget := congrArg (fun l => l[i]?) heq
    have hi' : i < votes.length - (votes.length - window) := by omega
    have hi'' : votes.length - n - window + i < votes.length - n := by omega
    simpa only [List.length_drop, List.getElem?_take_of_lt hi', List.getElem?_drop, List.getElem?_take_of_lt hi'',
      List.getElem?_append_left (by simp only [List.length_map, List.length_range]; omega :
        i < ((List.range n).map popped).length), List.getElem?_map, List.getElem?_range (by omega : i < n),
      Option.map_some] using hget
  · rintro ⟨hfull, hpopped⟩
    refine List.ext_getElem? fun i => ?_
    rw [List.length_drop, List.getElem?_drop, List.getElem?_take, List.getElem?_take]
    have hiff : i < votes.length - (votes.length - window) ↔ votes.length - n - window + i < votes.length - n := by omega
    by_cases hi : i < votes.length - (votes.length - window)
    · rw [if_pos hi, if_pos (hiff.mp hi)]
      rcases Nat.lt_or_ge i n with hlt' | hge
      · rw [List.getElem?_append_left (by simp only [List.length_map, List.length_range]; exact hlt'), List.getElem?_map,
          List.getElem?_range hlt']
        exact hpopped i (by omega)
      · rw [List.getElem?_append_right (by simp only [List.length_map, List.length_range]; exact hge), List.length_map,
          List.length_range, List.getElem?_drop]
        congr 1
        omega
    · rw [if_neg hi, if_neg (mt hiff.mpr hi)]

theorem WellFormed.onBlockPopped (hw : hf.WellFormed) {nblocks : ℕ} (hpos : 0 < nblocks) (hlt : nblocks < hf.db.height) :
    ∃ hf', (hf.withBlocks (hf.db.blocks.take (hf.db.height - nblocks))).onBlockPopped nblocks = some hf' ∧
      hf'.WellFormed ∧ (hf.HoldsVotes → (hf'.HoldsVotes ↔ hf.PopRefills nblocks)) := by
  have hheight : (hf.withBlocks (hf.db.blocks.take (hf.db.height - nblocks))).db.height = hf.db.height - nblocks := by
    change (hf.db.blocks.take _).length = _
    rw [List.length_take]
    exact min_eq_left (Nat.sub_le _ _)
  have hstored : ∀ i < nblocks, hf.db.hardForkVersions (hf.db.height - nblocks + i) =
      some ((hf.db.hardForkVersions (hf.db.height - nblocks + i)).getD 0) := by
    intro i hi
    obtain ⟨version, hversion⟩ := Option.isSome_iff_exists.mp (hw.stored (hf.db.height - nblocks + i) (by omega))
    rw [hversion, Option.getD_some]
  rw [HardFork.onBlockPopped, if_neg hpos.ne']
  obtain ⟨hf', hpop, hdb, hheights, hwindow, hversions, hcounted⟩ := @popVersions_versions
    (hf.withBlocks (hf.db.blocks.take (hf.db.height - nblocks))) nblocks
    (fun i => (hf.db.hardForkVersions (hf.db.height - nblocks + i)).getD 0) (hw.versions (by omega)) hw.counted
    (by rw [hheight]; exact hstored)
  rw [hpop]
  have hne := hw.versions (by omega)
  have hw' : (hf'.setForkIndex (highestFork hf'.heights hf'.db.height (hf'.heights.length - 1))).WellFormed := by
    refine ⟨?_, ?_, ?_, hcounted⟩
    · exact (hheights : hf'.heights = hf.heights) ▸ hw.heights
    · intro k hk
      change k < hf'.db.height at hk
      change (hf'.db.hardForkVersions k).isSome
      rw [hdb] at hk ⊢
      exact hw.stored k (by omega)
    · intro _ hnil
      have hzero := congrArg List.length ((hversions : hf'.versions = _).symm.trans hnil)
      have hlength : 0 < hf.versions.length := List.length_pos_iff.mpr hne
      change (((List.range nblocks).map _ ++ hf.versions).take hf.versions.length).length = 0 at hzero
      rw [List.length_take, List.length_append] at hzero
      omega
  refine ⟨_, rfl, hw', fun h => ?_⟩
  have hblocks : hf'.db.blocks = hf.db.blocks.take (hf.db.height - nblocks) := by
    rw [hdb]
    rfl
  have hlength : (hf.effectiveVotes hf.db.blocks).length = hf.db.height := List.length_map _
  have hold : hf.versions = (hf.effectiveVotes hf.db.blocks).drop (hf.db.height - hf.windowSize) := by
    rw [h.versions, windowVotes, effectiveVotes, List.map_drop]
    rfl
  have hnew : hf'.windowVotes = ((hf.effectiveVotes hf.db.blocks).take (hf.db.height - nblocks)).drop
      (hf.db.height - nblocks - hf.windowSize) := by
    have hheight' : hf'.db.height = hf.db.height - nblocks := (congrArg ForkDb.height hdb).trans hheight
    rw [windowVotes, effectiveVotes_congr (hheights : hf'.heights = hf.heights), hblocks, hheight', hwindow]
    simp only [effectiveVotes, List.map_drop, List.map_take]
    rfl
  have hiff : hf'.versions = hf'.windowVotes ↔ hf.PopRefills nblocks := by
    have hrefilled := @take_refilled_iff _ _
      (fun i => (hf.db.hardForkVersions (hf.db.height - nblocks + i)).getD 0) _ _ hf.windowSize_pos hpos (hlength ▸ hlt)
    rw [hlength, ← hold] at hrefilled
    rw [hnew, hversions]
    refine hrefilled.trans (and_congr_right fun _ => forall₂_congr fun i hi => ?_)
    rw [hstored i (by omega), Option.getD_some]
  exact ⟨fun hvotes => hiff.mp hvotes.versions, fun hrefills => HoldsVotes.of_versions hw' (hiff.mpr hrefills)⟩

end

def Moves : ForkOp → Prop
  | .addBlock _ => True
  | .pop _ => True
  | .reorganizeFromChainHeight _ => False
  | .init => False

theorem WellFormed.step (hw : hf.WellFormed) {op : ForkOp} (hmoves : Moves op) :
    ∃ hf', hf.step op = some hf' ∧ hf'.WellFormed ∧ (hf.HoldsVotes → (hf'.HoldsVotes ↔ hf.StepRefills op)) := by
  cases op with
  | addBlock b =>
    rw [HardFork.step]
    split_ifs with hcheck
    · obtain ⟨hw', hvotes⟩ := hw.addBlock b hcheck
      exact ⟨_, rfl, hw', fun h => iff_of_true (hvotes h) trivial⟩
    · exact ⟨hf, rfl, hw, fun h => iff_of_true h trivial⟩
  | pop nblocks =>
    rw [HardFork.step]
    split_ifs with hn
    · obtain ⟨hf', hpop, hw', hiff⟩ := hw.onBlockPopped hn.1 hn.2
      exact ⟨hf', hpop, hw', fun h => (hiff h).trans ⟨fun hrefills _ => hrefills, fun hrefills => hrefills hn⟩⟩
    · exact ⟨hf, rfl, hw, fun h => iff_of_true h fun hn' => absurd hn' hn⟩
  | reorganizeFromChainHeight height => exact hmoves.elim
  | init => exact hmoves.elim

theorem WellFormed.run_iff (hw : hf.WellFormed) (h : hf.HoldsVotes) {ops : List ForkOp} (hmoves : ∀ op ∈ ops, Moves op) :
    (∀ k ≤ ops.length, ∃ hf', hf.run (ops.take k) = some hf' ∧ hf'.HoldsVotes ∧ hf'.Reinitializes) ↔
      ∀ k op, ops[k]? = some op → ∃ hf', hf.run (ops.take k) = some hf' ∧ hf'.StepRefills op := by
  induction ops generalizing hf with
  | nil =>
    refine ⟨fun _ k op hop => by simp at hop, fun _ k _ => ⟨hf, ?_, h, h.reinitializes hw⟩⟩
    rw [List.take_nil, HardFork.run]
  | cons op ops ih =>
    obtain ⟨hf', hstep, hw', hiff⟩ := hw.step (hmoves op List.mem_cons_self)
    have hrun : ∀ k, hf.run ((op :: ops).take (k + 1)) = hf'.run (ops.take k) := by
      intro k
      rw [List.take_succ_cons, HardFork.run, hstep, Option.bind_some]
    have ih' := fun h' => ih hw' h' fun op' hop' => hmoves op' (List.mem_cons_of_mem _ hop')
    constructor
    · intro hall
      obtain ⟨hf₁, hrun₁, hvotes₁, -⟩ := hall 1 (Nat.le_add_left 1 _)
      rw [hrun 0, List.take_zero, HardFork.run, Option.some.injEq] at hrun₁
      rw [← hrun₁] at hvotes₁
      have hrest := (ih' hvotes₁).mp fun k hk => by
        rw [← hrun k]
        exact hall (k + 1) (Nat.succ_le_succ hk)
      intro k op' hop'
      cases k with
      | zero =>
        rw [List.getElem?_cons_zero, Option.some.injEq] at hop'
        exact ⟨hf, rfl, hop' ▸ (hiff h).mp hvotes₁⟩
      | succ k =>
        rw [hrun k]
        exact hrest k op' hop'
    · intro hall
      obtain ⟨hf₀, hrun₀, hrefills⟩ := hall 0 op List.getElem?_cons_zero
      rw [List.take_zero, HardFork.run, Option.some.injEq] at hrun₀
      rw [← hrun₀] at hrefills
      have hrest := (ih' ((hiff h).mpr hrefills)).mpr fun k op' hop' => by
        rw [← hrun k]
        exact hall (k + 1) op' hop'
      intro k hk
      cases k with
      | zero => exact ⟨hf, rfl, h, h.reinitializes hw⟩
      | succ k =>
        rw [hrun k]
        exact hrest k (Nat.le_of_succ_le_succ hk)

theorem holdsVotes_iff_refills (base : HardFork) (ops : List ForkOp)
    (hstored : ∀ k < base.db.height, (base.db.hardForkVersions k).isSome) (hmoves : ∀ op ∈ ops, Moves op) :
    ∃ started, base.init = some started ∧
      ((∀ k ≤ ops.length, ∃ hf, started.run (ops.take k) = some hf ∧ hf.HoldsVotes ∧ hf.Reinitializes) ↔
        ∀ k op, ops[k]? = some op → ∃ hf, started.run (ops.take k) = some hf ∧ hf.StepRefills op) := by
  obtain ⟨started, hinit, hw, hvotes, -⟩ := init_votes hstored
  exact ⟨started, hinit, hw.run_iff hvotes hmoves⟩

def narrowObject : HardFork :=
  { mainnetObject with windowSize := 1, windowSize_pos := Nat.one_pos, heights := mainnetHardForks }

def voting (majorVersion minorVersion : UInt8) : BlockHeader := ⟨majorVersion, minorVersion, 0, default, 0⟩

theorem holdsVotes_narrow :
    ∃ started, narrowObject.init = some started ∧
      ∀ k ≤ 3, ∃ hf, started.run ([.addBlock (voting 1 1), .addBlock (voting 1 16), .pop 1].take k) = some hf ∧
        hf.HoldsVotes ∧ hf.Reinitializes := by
  obtain ⟨started, hinit, hiff⟩ := holdsVotes_iff_refills narrowObject
    [.addBlock (voting 1 1), .addBlock (voting 1 16), .pop 1] (fun k hk => absurd hk (Nat.not_lt_zero k))
    (by simp [Moves])
  refine ⟨started, hinit, hiff.mpr fun k op hop => ?_⟩
  cases (Option.some.inj hinit : _ = started)
  match k, hop with
  | 0, hop => cases hop; exact ⟨_, rfl, trivial⟩
  | 1, hop => cases hop; exact ⟨_, rfl, trivial⟩
  | 2, hop =>
    cases hop
    refine ⟨_, rfl, fun _ => ⟨by decide, fun i hi => ?_⟩⟩
    have hzero : i = 0 := Nat.lt_one_iff.mp hi
    rw [hzero]
    rfl

theorem votes_of_popped_stay :
    ∃ hf hf', ({ mainnetObject with heights := mainnetHardForks } : HardFork).run
        [.init, .addBlock (voting 1 1), .addBlock (voting 1 16), .pop 1] = some hf ∧
      hf.versions = [1, 1] ∧ hf.windowVotes = [1] ∧ hf.lastVersions 1 = 2 ∧
      hf.init = some hf' ∧ hf'.versions = [1] ∧ hf'.lastVersions 1 = 1 :=
  ⟨_, _, rfl, by decide, by decide, by decide, rfl, by decide, by decide⟩

end Velkavo.Cryptonote.HardFork
