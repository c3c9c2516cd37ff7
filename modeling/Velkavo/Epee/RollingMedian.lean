import Velkavo.Containers.Sift
import Mathlib.Data.List.Rotate
import Mathlib.Data.Int.ConditionallyCompleteOrder

namespace Velkavo.Epee

/-- The positions of `heap` go from `-(n / 2)` to `(n - 1) / 2`. -/
structure RollingMedian (Item : Type) where
  data : ℕ → Item
  pos : ℕ → ℤ
  heap : ℤ → ℕ
  n : ℕ
  idx : ℕ
  minCt : ℕ
  maxCt : ℕ
  sz : ℕ

namespace RollingMedian

variable {Item : Type}

def initialPos (k : ℕ) : ℤ := ((k + 1) / 2 : ℕ) * (if k % 2 = 1 then -1 else 1)

def place (s : RollingMedian Item) (k : ℕ) : RollingMedian Item :=
  { s with pos := Function.update s.pos k (initialPos k), heap := Function.update s.heap (initialPos k) k }

def clear (s : RollingMedian Item) : RollingMedian Item :=
  (List.range s.n).reverse.foldl place { s with idx := 0, minCt := 0, maxCt := 0, sz := 0 }

def new (n : ℕ) (data : ℕ → Item) (pos : ℕ → ℤ) (heap : ℤ → ℕ) : RollingMedian Item :=
  clear { data := data, pos := pos, heap := heap, n := n, idx := 0, minCt := 0, maxCt := 0, sz := 0 }

def size (s : RollingMedian Item) : ℕ := s.sz

def item (s : RollingMedian Item) (i : ℤ) : Item := s.data (s.heap i)

def mmexchange (i j : ℤ) (s : RollingMedian Item) : RollingMedian Item :=
  let heap := Function.update (Function.update s.heap i (s.heap j)) j (s.heap i)
  { s with heap := heap, pos := Function.update (Function.update s.pos (heap i) i) (heap j) j }

section

variable [LT Item] [DecidableLT Item]

def mmless (s : RollingMedian Item) (i j : ℤ) : Bool := decide (s.item i < s.item j)

def minHeap : Sift.Board (RollingMedian Item) where
  less s i j := s.mmless i j
  exchange i j := mmexchange i j

def maxHeap : Sift.Board (RollingMedian Item) where
  less s i j := s.mmless (-j) (-i)
  exchange i j := mmexchange (-j) (-i)

def minSortDown (i : ℕ) (s : RollingMedian Item) : RollingMedian Item := minHeap.sortDown s.minCt s.minCt i s

def maxSortDown (i : ℕ) (s : RollingMedian Item) : RollingMedian Item := maxHeap.sortDown s.maxCt s.maxCt i s

def minSortUp (i : ℕ) (s : RollingMedian Item) : RollingMedian Item × Bool := minHeap.sortUp i i s

def maxSortUp (i : ℕ) (s : RollingMedian Item) : RollingMedian Item × Bool := maxHeap.sortUp i i s

def raiseMin (p : ℕ) (s : RollingMedian Item) : RollingMedian Item :=
  let (s, changed) := s.minSortUp p
  if changed then
    let (s, exchanged) := maxHeap.cmpExch 1 0 s
    if exchanged then s.maxSortDown 1 else s
  else s

def raiseMax (p : ℕ) (s : RollingMedian Item) : RollingMedian Item :=
  let (s, changed) := s.maxSortUp p
  if changed && s.minCt != 0 then
    let (s, exchanged) := minHeap.cmpExch 1 0 s
    if exchanged then s.minSortDown 1 else s
  else s

def settleMax (s : RollingMedian Item) : RollingMedian Item :=
  if s.maxCt = 0 then s
  else
    let (s, changed) := s.maxSortUp 1
    if changed then s.maxSortDown 1 else s

def settleMin (s : RollingMedian Item) : RollingMedian Item :=
  if s.minCt = 0 then s
  else
    let (s, changed) := s.minSortUp 1
    if changed then s.minSortDown 1 else s

def insert (v : Item) (s : RollingMedian Item) : RollingMedian Item :=
  let p := s.pos s.idx
  let old := s.data s.idx
  let s := { s with data := Function.update s.data s.idx v, idx := (s.idx + 1) % s.n, sz := min (s.sz + 1) s.n }
  if p > 0 then
    if s.minCt < (s.n - 1) / 2 then raiseMin p.natAbs { s with minCt := s.minCt + 1 }
    else if v > old then s.minSortDown p.natAbs
    else raiseMin p.natAbs s
  else if p < 0 then
    if s.maxCt < s.n / 2 then raiseMax p.natAbs { s with maxCt := s.maxCt + 1 }
    else if v < old then s.maxSortDown p.natAbs
    else raiseMax p.natAbs s
  else settleMin (settleMax s)

end

section

def InRange (n : ℕ) (i : ℤ) : Prop := -((n / 2 : ℕ) : ℤ) ≤ i ∧ i ≤ ((n - 1) / 2 : ℕ)

theorem initialPos_odd {k : ℕ} (h : k % 2 = 1) : initialPos k = -((k + 1) / 2 : ℕ) := by
  rw [initialPos, if_pos h]
  omega

theorem initialPos_even {k : ℕ} (h : k % 2 = 0) : initialPos k = (k / 2 : ℕ) := by
  rw [initialPos, if_neg (by omega)]
  omega

theorem initialPos_inj {k m : ℕ} (h : initialPos k = initialPos m) : k = m := by
  rcases Nat.mod_two_eq_zero_or_one k with hk | hk <;> rcases Nat.mod_two_eq_zero_or_one m with hm | hm <;>
    simp only [initialPos_even, initialPos_odd, hk, hm] at h <;> omega

theorem inRange_iff {n : ℕ} (hn : 0 < n) {i : ℤ} : InRange n i ↔ ∃ k < n, initialPos k = i := by
  rw [InRange]
  constructor
  · rintro ⟨hlow, hhigh⟩
    rcases le_or_gt 0 i with hi | hi
    · refine ⟨2 * i.toNat, by omega, ?_⟩
      rw [initialPos_even (by omega)]
      omega
    · refine ⟨2 * (-i).toNat - 1, by omega, ?_⟩
      rw [initialPos_odd (by omega)]
      omega
  · rintro ⟨k, hk, rfl⟩
    rcases Nat.mod_two_eq_zero_or_one k with h | h
    · rw [initialPos_even h]
      omega
    · rw [initialPos_odd h]
      omega

theorem inRange_initialPos_iff {n k : ℕ} (hn : 0 < n) : InRange n (initialPos k) ↔ k < n := by
  rw [inRange_iff hn]
  constructor
  · rintro ⟨m, hm, heq⟩
    rwa [← initialPos_inj heq]
  · exact fun hk => ⟨k, hk, rfl⟩

end

structure Linked (s : RollingMedian Item) : Prop where
  inRange_pos : ∀ k < s.n, InRange s.n (s.pos k)
  heap_pos : ∀ k < s.n, s.heap (s.pos k) = k
  heap_lt : ∀ i, InRange s.n i → s.heap i < s.n
  pos_heap : ∀ i, InRange s.n i → s.pos (s.heap i) = i

structure Shape (s : RollingMedian Item) : Prop where
  n_pos : 0 < s.n
  sz_le : s.sz ≤ s.n
  minCt_eq : s.minCt = (s.sz - 1) / 2
  maxCt_eq : s.maxCt = s.sz / 2
  linked : Linked s
  fresh : ∀ k, s.sz ≤ k → k < s.n → s.pos k = initialPos k

section

variable {s : RollingMedian Item} {i j : ℤ}

theorem heap_mmexchange : (mmexchange i j s).heap = s.heap ∘ Equiv.swap i j := by
  funext x
  rw [mmexchange, Function.comp_apply, Equiv.swap_apply_def]
  simp only [Function.update_apply]
  split_ifs with hj hi hi
  · rw [← hj, hi]
  · rfl
  · rfl
  · rfl

theorem item_mmexchange (x : ℤ) : (mmexchange i j s).item x = s.item (Equiv.swap i j x) := by
  rw [item, heap_mmexchange]
  rfl

theorem pos_mmexchange (h : Linked s) (hi : InRange s.n i) (hj : InRange s.n j) {k : ℕ} (hk : k < s.n) :
    (mmexchange i j s).pos k = Equiv.swap i j (s.pos k) := by
  have hpos : (mmexchange i j s).pos =
      Function.update (Function.update s.pos ((mmexchange i j s).heap i) i) ((mmexchange i j s).heap j) j := rfl
  rw [hpos, heap_mmexchange, Function.comp_apply, Function.comp_apply, Equiv.swap_apply_left, Equiv.swap_apply_right,
    Function.update_apply, Function.update_apply]
  split_ifs with hki hkj
  · rw [hki, h.pos_heap i hi, Equiv.swap_apply_left]
  · rw [hkj, h.pos_heap j hj, Equiv.swap_apply_right]
  · refine (Equiv.swap_apply_of_ne_of_ne ?_ ?_).symm
    · exact fun heq => hki (by rw [← heq, h.heap_pos k hk])
    · exact fun heq => hkj (by rw [← heq, h.heap_pos k hk])

theorem inRange_swap {n : ℕ} (hi : InRange n i) (hj : InRange n j) {x : ℤ} (hx : InRange n x) :
    InRange n (Equiv.swap i j x) := by
  rw [Equiv.swap_apply_def]
  split_ifs
  · exact hj
  · exact hi
  · exact hx

theorem Linked.mmexchange (h : Linked s) (hi : InRange s.n i) (hj : InRange s.n j) : Linked (mmexchange i j s) := by
  constructor
  · intro k hk
    rw [pos_mmexchange h hi hj hk]
    exact inRange_swap hi hj (h.inRange_pos k hk)
  · intro k hk
    rw [pos_mmexchange h hi hj hk, heap_mmexchange, Function.comp_apply, Equiv.swap_apply_self]
    exact h.heap_pos k hk
  · intro x hx
    rw [heap_mmexchange]
    exact h.heap_lt _ (inRange_swap hi hj hx)
  · intro x hx
    have hlt := h.heap_lt _ (inRange_swap hi hj hx)
    rw [heap_mmexchange, Function.comp_apply, pos_mmexchange h hi hj hlt, h.pos_heap _ (inRange_swap hi hj hx),
      Equiv.swap_apply_self]

def Active (s : RollingMedian Item) (i : ℤ) : Prop := -(s.maxCt : ℤ) ≤ i ∧ i ≤ s.minCt

theorem Shape.active_iff (h : Shape s) {x : ℤ} : Active s x ↔ InRange s.sz x := by
  rw [Active, InRange, h.minCt_eq, h.maxCt_eq]

theorem Shape.inRange (h : Shape s) (hx : Active s i) : InRange s.n i := by
  have hle := h.sz_le
  rw [h.active_iff, InRange] at hx
  rw [InRange]
  omega

theorem Shape.mmexchange (h : Shape s) (hsz : 0 < s.sz) (hi : Active s i) (hj : Active s j) :
    Shape (mmexchange i j s) := by
  refine ⟨h.n_pos, h.sz_le, h.minCt_eq, h.maxCt_eq, h.linked.mmexchange (h.inRange hi) (h.inRange hj), ?_⟩
  intro k hk hkn
  have hpos := h.fresh k hk hkn
  have hinactive : ¬ Active s (initialPos k) := by
    rw [h.active_iff, inRange_initialPos_iff hsz]
    exact Nat.not_lt.mpr hk
  rw [pos_mmexchange h.linked (h.inRange hi) (h.inRange hj) hkn, hpos]
  refine Equiv.swap_apply_of_ne_of_ne ?_ ?_
  · exact fun heq => hinactive (heq ▸ hi)
  · exact fun heq => hinactive (heq ▸ hj)

structure Rearranged (base s : RollingMedian Item) : Prop where
  shape : Shape s
  data : s.data = base.data
  n : s.n = base.n
  idx : s.idx = base.idx
  minCt : s.minCt = base.minCt
  maxCt : s.maxCt = base.maxCt
  sz : s.sz = base.sz

theorem Rearranged.refl (h : Shape s) : Rearranged s s := ⟨h, rfl, rfl, rfl, rfl, rfl, rfl⟩

theorem Rearranged.exchange {base : RollingMedian Item} (hsz : 0 < base.sz) (hi : Active base i) (hj : Active base j)
    (h : Rearranged base s) : Rearranged base (RollingMedian.mmexchange i j s) := by
  rw [Active, ← h.minCt, ← h.maxCt] at hi hj
  exact ⟨h.shape.mmexchange (h.sz ▸ hsz) hi hj, h.data, h.n, h.idx, h.minCt, h.maxCt, h.sz⟩

end

end RollingMedian

end Velkavo.Epee
