import Velkavo.Epee.RollingMedian

namespace Velkavo.Epee.RollingMedian

open Sift

variable {Item : Type}

def minKey (s : RollingMedian Item) (k : ℕ) : Item := s.item k

def maxKey (s : RollingMedian Item) (k : ℕ) : Item := s.item (-k)

structure HeapOrder [LE Item] (s : RollingMedian Item) : Prop where
  above : Ordered (· ≤ ·) (minKey s) s.minCt
  below : Ordered (· ≥ ·) (maxKey s) s.maxCt

section

variable [LT Item] [DecidableLT Item] {base s : RollingMedian Item} {p : ℕ}

theorem exchange_min {t : RollingMedian Item} (j : ℕ) (hj : 0 < j) (hct : j ≤ base.minCt) (hshape : Shape base)
    (h : Rearranged base t) : Rearranged base (minHeap.exchange j (j / 2) t) := by
  have hcount := hshape.minCt_eq
  refine h.exchange (by omega) ⟨?_, ?_⟩ ⟨?_, ?_⟩
  all_goals omega

theorem exchange_max {t : RollingMedian Item} (j : ℕ) (hj : 0 < j) (hct : j ≤ base.maxCt) (hshape : Shape base)
    (h : Rearranged base t) : Rearranged base (maxHeap.exchange j (j / 2) t) := by
  have hcount := hshape.maxCt_eq
  refine h.exchange (by omega) ⟨?_, ?_⟩ ⟨?_, ?_⟩
  all_goals omega

theorem minSortDown_rearranged (hs : Shape s) (hp : 0 < p) : Rearranged s (s.minSortDown p) :=
  Board.sortDown_keeps hp (fun _ j hj hct => exchange_min j (by omega) hct hs) (.refl hs)

theorem maxSortDown_rearranged (hs : Shape s) (hp : 0 < p) : Rearranged s (s.maxSortDown p) :=
  Board.sortDown_keeps hp (fun _ j hj hct => exchange_max j (by omega) hct hs) (.refl hs)

theorem minSortUp_rearranged (hs : Shape s) (hp : p ≤ s.minCt) : Rearranged s (s.minSortUp p).1 :=
  Board.sortUp_keeps (fun _ j hj hle => exchange_min j hj (by omega) hs) (.refl hs)

theorem maxSortUp_rearranged (hs : Shape s) (hp : p ≤ s.maxCt) : Rearranged s (s.maxSortUp p).1 :=
  Board.sortUp_keeps (fun _ j hj hle => exchange_max j hj (by omega) hs) (.refl hs)

theorem settle_min_rearranged (hs : Rearranged base s) (hbase : Shape base) :
    Rearranged base (minHeap.settle base.minCt s) :=
  Board.settle_keeps (fun _ j hj hct => exchange_min j hj hct hbase) hs

theorem settle_max_rearranged (hs : Rearranged base s) (hbase : Shape base) :
    Rearranged base (maxHeap.settle base.maxCt s) :=
  Board.settle_keeps (fun _ j hj hct => exchange_max j hj hct hbase) hs

theorem maxKey_minSortDown {p k : ℕ} (hp : 0 < p) : maxKey (s.minSortDown p) k = maxKey s k := by
  refine Board.sortDown_keeps (P := fun t => maxKey t k = maxKey s k) hp (fun t j hj _ ht => ?_) rfl
  refine Eq.trans ((item_mmexchange _).trans (congrArg t.item (Equiv.swap_apply_of_ne_of_ne ?_ ?_))) ht
  all_goals omega

theorem minKey_maxSortDown {p k : ℕ} (hp : 0 < p) : minKey (s.maxSortDown p) k = minKey s k := by
  refine Board.sortDown_keeps (P := fun t => minKey t k = minKey s k) hp (fun t j hj _ ht => ?_) rfl
  refine Eq.trans ((item_mmexchange _).trans (congrArg t.item (Equiv.swap_apply_of_ne_of_ne ?_ ?_))) ht
  all_goals omega

omit [LT Item] [DecidableLT Item] in
theorem sortUp_one (b : Board (RollingMedian Item)) : b.sortUp 1 1 s = b.cmpExch 1 0 s := by
  rw [Board.sortUp_succ Nat.one_pos]
  rfl

theorem settleMin_eq : settleMin s = minHeap.settle s.minCt s := by
  rw [settleMin, Board.settle, minSortUp, sortUp_one, Board.cmpExch]
  cases minHeap.less s 1 0 <;> rfl

theorem settleMax_eq : settleMax s = maxHeap.settle s.maxCt s := by
  rw [settleMax, Board.settle, maxSortUp, sortUp_one, Board.cmpExch]
  cases maxHeap.less s 1 0 <;> rfl

theorem raiseMin_eq (hs : Shape s) (hp : p ≤ s.minCt) (hct : s.maxCt ≠ 0) :
    raiseMin p s = minHeap.raise maxHeap s.maxCt p s := by
  have hcount : (minHeap.sortUp p p s).1.maxCt = s.maxCt := (minSortUp_rearranged hs hp).maxCt
  rw [raiseMin, Board.raise, minSortUp]
  generalize minHeap.sortUp p p s = up at hcount ⊢
  obtain ⟨t, changed⟩ := up
  cases changed with
  | false => rfl
  | true =>
    rw [← hcount] at hct ⊢
    simp only [if_true]
    rw [← settleMax_eq, settleMax, if_neg hct, maxSortUp, sortUp_one]

theorem raiseMax_eq (hs : Shape s) (hp : p ≤ s.maxCt) : raiseMax p s = maxHeap.raise minHeap s.minCt p s := by
  have hcount : (maxHeap.sortUp p p s).1.minCt = s.minCt := (maxSortUp_rearranged hs hp).minCt
  rw [raiseMax, Board.raise, maxSortUp]
  generalize maxHeap.sortUp p p s = up at hcount ⊢
  obtain ⟨t, changed⟩ := up
  cases changed with
  | false => rfl
  | true =>
    rw [← hcount]
    simp only [Bool.true_and, if_true, bne_iff_ne]
    rw [← settleMin_eq, settleMin, minSortUp, sortUp_one, ite_not]

end

section

structure Cycled (s : RollingMedian Item) : Prop where
  idx_lt : s.idx < s.n
  idx_eq : s.sz < s.n → s.idx = s.sz

def written (v : Item) (s : RollingMedian Item) : RollingMedian Item :=
  { s with
    data := Function.update s.data s.idx v
    idx := (s.idx + 1) % s.n
    minCt := (min (s.sz + 1) s.n - 1) / 2
    maxCt := min (s.sz + 1) s.n / 2
    sz := min (s.sz + 1) s.n }

variable {s : RollingMedian Item} {v : Item}

theorem Shape.written (h : Shape s) : Shape (written v s) where
  n_pos := h.n_pos
  sz_le := Nat.min_le_right _ _
  minCt_eq := rfl
  maxCt_eq := rfl
  linked := ⟨h.linked.inRange_pos, h.linked.heap_pos, h.linked.heap_lt, h.linked.pos_heap⟩
  fresh := by
    intro k (hk : min (s.sz + 1) s.n ≤ k) (hkn : k < s.n)
    exact h.fresh k (by omega) hkn

theorem item_written (h : Shape s) (hidx : s.idx < s.n) {i : ℤ} (hi : InRange s.n i) :
    (written v s).item i = if i = s.pos s.idx then v else s.item i := by
  change Function.update s.data s.idx v (s.heap i) = _
  rw [Function.update_apply]
  by_cases heq : i = s.pos s.idx
  · rw [if_pos heq, if_pos (by rw [heq, h.linked.heap_pos _ hidx])]
  · rw [if_neg heq, if_neg]
    · rfl
    · intro hheap
      rw [← hheap, h.linked.pos_heap i hi] at heq
      exact heq rfl

theorem next_place (h : Shape s) (hc : Cycled s) :
    s.sz = s.n ∨ s.sz < s.n ∧
      (s.sz % 2 = 0 ∧ s.pos s.idx = (s.sz / 2 : ℕ) ∨ s.sz % 2 = 1 ∧ s.pos s.idx = -((s.sz + 1) / 2 : ℕ)) := by
  rcases Nat.lt_or_ge s.sz s.n with hroom | hfull
  · have hp : s.pos s.idx = initialPos s.sz := by
      rw [hc.idx_eq hroom]
      exact h.fresh s.sz (Nat.le_refl _) hroom
    rcases Nat.mod_two_eq_zero_or_one s.sz with heven | hodd
    · exact .inr ⟨hroom, .inl ⟨heven, hp.trans (initialPos_even heven)⟩⟩
    · exact .inr ⟨hroom, .inr ⟨hodd, hp.trans (initialPos_odd hodd)⟩⟩
  · exact .inl (Nat.le_antisymm h.sz_le hfull)

theorem data_idx (h : Shape s) (hc : Cycled s) : s.item (s.pos s.idx) = s.data s.idx :=
  congrArg s.data (h.linked.heap_pos _ hc.idx_lt)

theorem minKey_written (h : Shape s) (hc : Cycled s) {k : ℕ} (hk : k ≤ (written v s).minCt) :
    minKey (written v s) k = if (k : ℤ) = s.pos s.idx then v else minKey s k := by
  have hactive : Active (written v s) k := ⟨by omega, by omega⟩
  exact item_written h hc.idx_lt (h.written.inRange hactive)

theorem maxKey_written (h : Shape s) (hc : Cycled s) {k : ℕ} (hk : k ≤ (written v s).maxCt) :
    maxKey (written v s) k = if -(k : ℤ) = s.pos s.idx then v else maxKey s k := by
  have hactive : Active (written v s) (-k) := ⟨by omega, by omega⟩
  exact item_written h hc.idx_lt (h.written.inRange hactive)

theorem written_above (h : Shape s) (hc : Cycled s) {p : ℕ} (hp : s.pos s.idx = p) (hpos : 0 < p) :
    (written v s).maxCt = s.maxCt ∧ 0 < s.maxCt ∧
      ((s.sz < s.n ∧ (written v s).minCt = s.minCt + 1 ∧ p = s.minCt + 1) ∨
        (s.sz = s.n ∧ (written v s).minCt = s.minCt ∧ p ≤ s.minCt)) := by
  have hmin := h.minCt_eq
  have hmax := h.maxCt_eq
  have hle := h.sz_le
  have hrange := h.linked.inRange_pos s.idx hc.idx_lt
  rw [hp, InRange] at hrange
  simp only [written]
  have hplace := next_place h hc
  omega

theorem written_below (h : Shape s) (hc : Cycled s) {p : ℕ} (hp : s.pos s.idx = -p) (hpos : 0 < p) :
    (written v s).minCt = s.minCt ∧
      ((s.sz < s.n ∧ (written v s).maxCt = s.maxCt + 1 ∧ p = s.maxCt + 1) ∨
        (s.sz = s.n ∧ (written v s).maxCt = s.maxCt ∧ p ≤ s.maxCt)) := by
  have hmin := h.minCt_eq
  have hmax := h.maxCt_eq
  have hle := h.sz_le
  have hrange := h.linked.inRange_pos s.idx hc.idx_lt
  rw [hp, InRange] at hrange
  simp only [written]
  have hplace := next_place h hc
  omega

theorem written_median (h : Shape s) (hc : Cycled s) (hp : s.pos s.idx = 0) :
    (written v s).minCt = s.minCt ∧ (written v s).maxCt = s.maxCt := by
  have hmin := h.minCt_eq
  have hmax := h.maxCt_eq
  have hle := h.sz_le
  have hn := h.n_pos
  simp only [written]
  have hplace := next_place h hc
  omega

variable [LT Item] [DecidableLT Item]

theorem insert_eq (h : Shape s) (hc : Cycled s) :
    insert v s =
      if s.pos s.idx > 0 then
        if s.sz < s.n ∨ ¬ v > s.data s.idx then raiseMin (s.pos s.idx).natAbs (written v s)
        else (written v s).minSortDown (s.pos s.idx).natAbs
      else if s.pos s.idx < 0 then
        if s.sz < s.n ∨ ¬ v < s.data s.idx then raiseMax (s.pos s.idx).natAbs (written v s)
        else (written v s).maxSortDown (s.pos s.idx).natAbs
      else settleMin (settleMax (written v s)) := by
  have hmin := h.minCt_eq
  have hmax := h.maxCt_eq
  have hle := h.sz_le
  have hn := h.n_pos
  have hstate : ∀ m M, m = (min (s.sz + 1) s.n - 1) / 2 → M = min (s.sz + 1) s.n / 2 →
      { s with
        data := Function.update s.data s.idx v, idx := (s.idx + 1) % s.n, minCt := m, maxCt := M,
        sz := min (s.sz + 1) s.n } = written v s := by
    rintro m M rfl rfl
    rfl
  rw [insert]
  rcases next_place h hc with hfull | ⟨hroom, hparity⟩
  · have hroom : ¬ s.sz < s.n := by omega
    simp only [hroom, false_or, ite_not]
    rw [if_neg (show ¬ s.minCt < (s.n - 1) / 2 by omega), if_neg (show ¬ s.maxCt < s.n / 2 by omega),
      hstate _ _ (by omega) (by omega)]
  · simp only [hroom, true_or, if_true]
    split_ifs with hpos hct hv hneg hct hv
    · rw [hstate _ _ (by omega) (by omega)]
    · omega
    · omega
    · rw [hstate _ _ (by omega) (by omega)]
    · omega
    · omega
    · rw [hstate _ _ (by omega) (by omega)]

end

section

variable [LT Item] [DecidableLT Item] [LE Item] [Std.LawfulOrderLT Item] [Std.IsLinearPreorder Item]
  {s : RollingMedian Item} {v : Item}

theorem swap_natCast (i j k : ℕ) : Equiv.swap (i : ℤ) j k = (Equiv.swap i j k : ℕ) := by
  simp only [Equiv.swap_apply_def, Nat.cast_inj]
  split_ifs <;> rfl

theorem swap_neg_natCast (i j k : ℕ) : Equiv.swap (-(j : ℤ)) (-i) (-k) = -(Equiv.swap i j k : ℕ) := by
  simp only [Equiv.swap_apply_def, neg_inj, Nat.cast_inj]
  split_ifs with hj hi hi
  · rw [← hj, hi]
  all_goals rfl

theorem keyed_minHeap : minHeap.Keyed (fun x y : Item => x ≤ y) minKey where
  less_iff s i j := by
    rw [Std.not_le]
    exact decide_eq_true_iff
  key_exchange i j s := by
    funext k
    rw [minKey, Function.comp_apply, minKey, ← swap_natCast]
    exact item_mmexchange _

theorem keyed_maxHeap : maxHeap.Keyed (fun x y : Item => x ≥ y) maxKey where
  less_iff s i j := by
    rw [ge_iff_le, Std.not_le]
    exact decide_eq_true_iff
  key_exchange i j s := by
    funext k
    rw [maxKey, Function.comp_apply, maxKey, ← swap_neg_natCast]
    exact item_mmexchange _

theorem facing : Sift.Board.Facing minHeap maxHeap (fun x y : Item => x ≤ y) (fun x y => x ≥ y) minKey maxKey where
  keyed := keyed_minHeap
  keyed' := keyed_maxHeap
  opposite _ _ := Iff.rfl
  root s := rfl
  apart s i j k hk := by
    rw [maxKey, maxKey]
    refine (item_mmexchange _).trans (congrArg s.item (Equiv.swap_apply_of_ne_of_ne ?_ ?_))
    all_goals omega
  apart' s i j k hk := by
    rw [minKey, minKey]
    refine (item_mmexchange _).trans (congrArg s.item (Equiv.swap_apply_of_ne_of_ne ?_ ?_))
    all_goals omega

omit [LT Item] [DecidableLT Item] [Std.LawfulOrderLT Item] [Std.IsLinearPreorder Item] in
theorem HeapOrder.of_rearranged {t : RollingMedian Item} (h : Rearranged s t)
    (hord : Ordered (· ≤ ·) (minKey t) s.minCt ∧ Ordered (· ≥ ·) (maxKey t) s.maxCt) : HeapOrder t :=
  ⟨h.minCt ▸ hord.1, h.maxCt ▸ hord.2⟩

theorem minSortDown_order (hs : Shape s) {p : ℕ} (hp : 0 < p) (hdown : DownAt (· ≤ ·) (minKey s) s.minCt p)
    (hbelow : Ordered (· ≥ ·) (maxKey s) s.maxCt) : HeapOrder (s.minSortDown p) := by
  refine .of_rearranged (minSortDown_rearranged hs hp) ⟨?_, ?_⟩
  · exact keyed_minHeap.sortDown_ordered hp (by omega) hdown
  · exact hbelow.congr fun k _ => maxKey_minSortDown hp

theorem maxSortDown_order (hs : Shape s) {p : ℕ} (hp : 0 < p) (hdown : DownAt (· ≥ ·) (maxKey s) s.maxCt p)
    (habove : Ordered (· ≤ ·) (minKey s) s.minCt) : HeapOrder (s.maxSortDown p) := by
  refine .of_rearranged (maxSortDown_rearranged hs hp) ⟨?_, ?_⟩
  · exact habove.congr fun k _ => minKey_maxSortDown hp
  · exact keyed_maxHeap.sortDown_ordered hp (by omega) hdown

theorem raiseMin_order (hs : Shape s) {p : ℕ} (hp : 0 < p) (hle : p ≤ s.minCt) (hct : 0 < s.maxCt)
    (hup : UpAt (· ≤ ·) (minKey s) s.minCt p) (hbelow : Ordered (· ≥ ·) (maxKey s) s.maxCt) :
    Rearranged s (raiseMin p s) ∧ HeapOrder (raiseMin p s) := by
  have hmoved : Rearranged s (minHeap.raise maxHeap s.maxCt p s) :=
    Board.raise_keeps (fun _ j hj hjp => exchange_min j hj (by omega) hs) (fun _ j hj hct => exchange_max j hj hct hs)
      (.refl hs)
  rw [raiseMin_eq hs hle (by omega)]
  exact ⟨hmoved, .of_rearranged hmoved (facing.raise_ordered hp hle hup hbelow)⟩

theorem raiseMax_order (hs : Shape s) {p : ℕ} (hp : 0 < p) (hle : p ≤ s.maxCt)
    (hup : UpAt (· ≥ ·) (maxKey s) s.maxCt p) (habove : Ordered (· ≤ ·) (minKey s) s.minCt) :
    Rearranged s (raiseMax p s) ∧ HeapOrder (raiseMax p s) := by
  have hmoved : Rearranged s (maxHeap.raise minHeap s.minCt p s) :=
    Board.raise_keeps (fun _ j hj hjp => exchange_max j hj (by omega) hs) (fun _ j hj hct => exchange_min j hj hct hs)
      (.refl hs)
  rw [raiseMax_eq hs hle]
  exact ⟨hmoved, .of_rearranged hmoved (facing.symm.raise_ordered hp hle hup habove).symm⟩

theorem insert_above (h : Shape s) (hc : Cycled s) (ho : HeapOrder s) {p : ℕ} (hp : s.pos s.idx = p) (hpos : 0 < p) :
    Rearranged (written v s) (insert v s) ∧ HeapOrder (insert v s) := by
  have hw : Shape (written v s) := h.written
  obtain ⟨hmax, hmaxpos, hcase⟩ := written_above (v := v) h hc hp hpos
  have hbelow : Ordered (· ≥ ·) (maxKey (written v s)) (written v s).maxCt := by
    rw [hmax]
    refine ho.below.congr fun k hk => ?_
    rw [maxKey_written h hc (hmax ▸ hk), if_neg (by omega)]
  have hsame : ∀ k, k ≤ s.minCt → k ≠ p → minKey (written v s) k = minKey s k := fun k hk hne => by
    rw [minKey_written h hc (by omega), if_neg (by omega)]
  have hnew : minKey (written v s) p = v := by
    rw [minKey_written h hc (by omega), if_pos hp.symm]
  have hold : minKey s p = s.data s.idx := by
    rw [minKey, ← hp, data_idx h hc]
  rw [insert_eq h hc, hp, if_pos (by omega), Int.natAbs_natCast]
  split_ifs with hup
  · refine raiseMin_order hw hpos (by omega) (by omega) ?_ hbelow
    rcases hcase with ⟨hroom, hmin, hlast⟩ | ⟨hfull, hmin, hle⟩
    · rw [hmin, hlast]
      exact ho.above.upAt_append fun k hk => hsame k hk (by omega)
    · rw [hmin]
      refine ho.above.upAt_replace hpos hle hsame ?_
      rw [hnew, hold]
      exact Std.not_lt.mp (hup.resolve_left (by omega))
  · obtain ⟨hfull, hv⟩ := not_or.mp hup
    obtain ⟨-, hmin, hle⟩ := hcase.resolve_left fun hroom => hfull hroom.1
    refine ⟨minSortDown_rearranged hw hpos, minSortDown_order hw hpos ?_ hbelow⟩
    rw [hmin]
    refine ho.above.downAt_replace hpos hle hsame ?_
    rw [hnew, hold]
    exact Std.le_of_lt (not_not.mp hv)

theorem insert_below (h : Shape s) (hc : Cycled s) (ho : HeapOrder s) {p : ℕ} (hp : s.pos s.idx = -p) (hpos : 0 < p) :
    Rearranged (written v s) (insert v s) ∧ HeapOrder (insert v s) := by
  have hw : Shape (written v s) := h.written
  obtain ⟨hmin, hcase⟩ := written_below (v := v) h hc hp hpos
  have habove : Ordered (· ≤ ·) (minKey (written v s)) (written v s).minCt := by
    rw [hmin]
    refine ho.above.congr fun k hk => ?_
    rw [minKey_written h hc (hmin ▸ hk), if_neg (by omega)]
  have hsame : ∀ k, k ≤ s.maxCt → k ≠ p → maxKey (written v s) k = maxKey s k := fun k hk hne => by
    rw [maxKey_written h hc (by omega), if_neg (by omega)]
  have hnew : maxKey (written v s) p = v := by
    rw [maxKey_written h hc (by omega), if_pos hp.symm]
  have hold : maxKey s p = s.data s.idx := by
    rw [maxKey, ← hp, data_idx h hc]
  rw [insert_eq h hc, hp, if_neg (by omega), if_pos (by omega), Int.natAbs_neg, Int.natAbs_natCast]
  split_ifs with hup
  · refine raiseMax_order hw hpos (by omega) ?_ habove
    rcases hcase with ⟨hroom, hmax, hlast⟩ | ⟨hfull, hmax, hle⟩
    · rw [hmax, hlast]
      exact ho.below.upAt_append fun k hk => hsame k hk (by omega)
    · rw [hmax]
      refine ho.below.upAt_replace hpos hle hsame ?_
      rw [hnew, hold]
      exact Std.not_lt.mp (hup.resolve_left (by omega))
  · obtain ⟨hfull, hv⟩ := not_or.mp hup
    obtain ⟨-, hmax, hle⟩ := hcase.resolve_left fun hroom => hfull hroom.1
    refine ⟨maxSortDown_rearranged hw hpos, maxSortDown_order hw hpos ?_ habove⟩
    rw [hmax]
    refine ho.below.downAt_replace hpos hle hsame ?_
    rw [hnew, hold]
    exact Std.le_of_lt (not_not.mp hv)

theorem insert_median (h : Shape s) (hc : Cycled s) (ho : HeapOrder s) (hp : s.pos s.idx = 0) :
    Rearranged (written v s) (insert v s) ∧ HeapOrder (insert v s) := by
  have hw : Shape (written v s) := h.written
  obtain ⟨hmin, hmax⟩ := written_median (v := v) h hc hp
  have hlow : Rearranged (written v s) (maxHeap.settle (written v s).maxCt (written v s)) :=
    settle_max_rearranged (.refl hw) hw
  have hboth := settle_min_rearranged hlow hw
  rw [insert_eq h hc, hp, if_neg (by omega), if_neg (by omega), settleMin_eq, settleMax_eq, hlow.minCt]
  have hsame : ∀ k, 0 < k → k ≤ (written v s).minCt → minKey (written v s) k = minKey s k := fun k hk hct => by
    rw [minKey_written h hc hct, if_neg (by omega)]
  have hsame' : ∀ k, 0 < k → k ≤ (written v s).maxCt → maxKey (written v s) k = maxKey s k := fun k hk hct => by
    rw [maxKey_written h hc hct, if_neg (by omega)]
  have habove := ho.above
  have hbelow := ho.below
  rw [← hmin] at habove
  rw [← hmax] at hbelow
  exact ⟨hboth, .of_rearranged hboth (facing.settle_settle_ordered habove hbelow hsame hsame')⟩

theorem insert_order (h : Shape s) (hc : Cycled s) (ho : HeapOrder s) :
    Rearranged (written v s) (insert v s) ∧ HeapOrder (insert v s) := by
  rcases lt_trichotomy (s.pos s.idx) 0 with hneg | hzero | hpos
  · exact insert_below h hc ho (p := (s.pos s.idx).natAbs) (by omega) (by omega)
  · exact insert_median h hc ho hzero
  · exact insert_above h hc ho (p := (s.pos s.idx).natAbs) (by omega) (by omega)

end

end Velkavo.Epee.RollingMedian
