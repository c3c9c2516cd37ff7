import Velkavo.Epee.RollingMedianOrder
import Velkavo.Core.Timestamps

namespace Velkavo.Epee.RollingMedian

variable {Item : Type}

section

variable {s : RollingMedian Item}

theorem foldl_place_eq {β : Type} (f : RollingMedian Item → β) (h : ∀ s k, f (place s k) = f s) (l : List ℕ)
    (s : RollingMedian Item) : f (l.foldl place s) = f s := by
  induction l generalizing s with
  | nil => rfl
  | cons k rest ih =>
    rw [List.foldl_cons, ih]
    exact h s k

def PlacedAt (s : RollingMedian Item) (k : ℕ) : Prop := s.pos k = initialPos k ∧ s.heap (initialPos k) = k

theorem PlacedAt.place (k : ℕ) : PlacedAt (place s k) k :=
  ⟨Function.update_self _ _ _, Function.update_self _ _ _⟩

theorem PlacedAt.of_ne {k m : ℕ} (h : PlacedAt s k) : PlacedAt (RollingMedian.place s m) k := by
  by_cases hkm : k = m
  · subst hkm
    exact .place k
  · constructor
    · exact (Function.update_of_ne hkm _ _).trans h.1
    · exact (Function.update_of_ne (fun heq => hkm (initialPos_inj heq)) _ _).trans h.2

theorem placedAt_foldl {l : List ℕ} {k : ℕ} (h : k ∈ l ∨ PlacedAt s k) : PlacedAt (l.foldl place s) k := by
  induction l generalizing s with
  | nil => exact h.resolve_left List.not_mem_nil
  | cons m rest ih =>
    refine ih ?_
    rcases h with hmem | hplaced
    · rcases List.mem_cons.mp hmem with rfl | hrest
      · exact .inr (.place k)
      · exact .inl hrest
    · exact .inr hplaced.of_ne

theorem linked_of_placedAt (hn : 0 < s.n) (h : ∀ k < s.n, PlacedAt s k) : Linked s := by
  constructor
  · intro k hk
    rw [(h k hk).1]
    exact (inRange_initialPos_iff hn).mpr hk
  · intro k hk
    rw [(h k hk).1]
    exact (h k hk).2
  · intro i hi
    obtain ⟨k, hk, rfl⟩ := (inRange_iff hn).mp hi
    rw [(h k hk).2]
    exact hk
  · intro i hi
    obtain ⟨k, hk, rfl⟩ := (inRange_iff hn).mp hi
    rw [(h k hk).2]
    exact (h k hk).1

end

structure Valid [LE Item] (s : RollingMedian Item) : Prop where
  shape : Shape s
  cycled : Cycled s
  order : HeapOrder s

def queue (s : RollingMedian Item) : List Item := ((List.range s.sz).map s.data).rotate s.idx

section

variable {s : RollingMedian Item} {v : Item}

theorem length_queue : (queue s).length = s.sz := by
  rw [queue, List.length_rotate, List.length_map, List.length_range]

theorem clear_valid [LE Item] (hn : 0 < s.n) : Valid s.clear ∧ s.clear.n = s.n ∧ queue s.clear = [] := by
  have hnum : s.clear.n = s.n := foldl_place_eq RollingMedian.n (fun _ _ => rfl) _ _
  have hsz : s.clear.sz = 0 := foldl_place_eq RollingMedian.sz (fun _ _ => rfl) _ _
  have hidx : s.clear.idx = 0 := foldl_place_eq RollingMedian.idx (fun _ _ => rfl) _ _
  have hmin : s.clear.minCt = 0 := foldl_place_eq RollingMedian.minCt (fun _ _ => rfl) _ _
  have hmax : s.clear.maxCt = 0 := foldl_place_eq RollingMedian.maxCt (fun _ _ => rfl) _ _
  have hplaced : ∀ k < s.clear.n, PlacedAt s.clear k := fun k hk =>
    placedAt_foldl (.inl (List.mem_reverse.mpr (List.mem_range.mpr (hnum ▸ hk))))
  refine ⟨⟨⟨by omega, by omega, by omega, by omega, linked_of_placedAt (by omega) hplaced, ?_⟩, ⟨by omega, by omega⟩,
    fun k hk hct => by omega, fun k hk hct => by omega⟩, hnum, ?_⟩
  · exact fun k _ hk => (hplaced k hk).1
  · rw [← List.length_eq_zero_iff, length_queue, hsz]

theorem new_valid [LE Item] {n : ℕ} (hn : 0 < n) (data : ℕ → Item) (pos : ℕ → ℤ) (heap : ℤ → ℕ) :
    Valid (new n data pos heap) ∧ (new n data pos heap).n = n ∧ queue (new n data pos heap) = [] :=
  clear_valid (s := { data := data, pos := pos, heap := heap, n := n, idx := 0, minCt := 0, maxCt := 0, sz := 0 }) hn

theorem map_update_range {f : ℕ → Item} {n i : ℕ} :
    (List.range n).map (Function.update f i v) = ((List.range n).map f).set i v := by
  apply List.ext_getElem
  · simp
  · intro k hk _
    rw [List.getElem_set]
    simp only [List.getElem_map, List.getElem_range, Function.update_apply, eq_comm]

theorem rotate_set {l : List Item} {i : ℕ} (hi : i < l.length) :
    (l.set i v).rotate (i + 1) = (l.rotate i).tail ++ [v] := by
  obtain ⟨a, x, b, rfl, rfl⟩ : ∃ a x b, l = a ++ x :: b ∧ i = a.length :=
    ⟨l.take i, l[i], l.drop (i + 1), by rw [List.getElem_cons_drop, List.take_append_drop],
      (List.length_take_of_le hi.le).symm⟩
  rw [List.set_append_right _ _ (Nat.le_refl _), Nat.sub_self, List.set_cons_zero, List.rotate_append_length_eq]
  have hend : (a ++ v :: b).rotate (a.length + 1) = b ++ (a ++ [v]) := by
    have hsplit := List.rotate_append_length_eq (a ++ [v]) b
    rwa [List.length_append, List.append_assoc] at hsplit
  rw [hend, List.cons_append, List.tail_cons, List.append_assoc]

theorem queue_written (h : Shape s) (hc : Cycled s) :
    queue (written v s) = if s.sz < s.n then queue s ++ [v] else (queue s).tail ++ [v] := by
  have hle := h.sz_le
  change ((List.range (min (s.sz + 1) s.n)).map (Function.update s.data s.idx v)).rotate ((s.idx + 1) % s.n) = _
  split_ifs with hroom
  · have hidx := hc.idx_eq hroom
    have hlast : ∀ l : List Item, l.length = s.sz + 1 → l.rotate ((s.idx + 1) % s.n) = l := by
      intro l hlen
      obtain hmore | hlast := Nat.lt_or_eq_of_le (show s.sz + 1 ≤ s.n from hroom)
      · rw [hidx, Nat.mod_eq_of_lt hmore, ← hlen, List.rotate_length]
      · rw [hidx, hlast, Nat.mod_self, List.rotate_zero]
    have hqueue : queue s = (List.range s.sz).map s.data := by
      have hround := List.rotate_length ((List.range s.sz).map s.data)
      rw [List.length_map, List.length_range] at hround
      rw [queue, hidx, hround]
    rw [Nat.min_eq_left hroom, hlast _ (by rw [List.length_map, List.length_range]), List.range_succ, List.map_append,
      map_update_range, List.set_eq_of_length_le (by rw [List.length_map, List.length_range, hidx]), hqueue,
      List.map_singleton, hidx, Function.update_self]
  · have hfull : s.sz = s.n := by omega
    have hlen : ((List.range s.n).map (Function.update s.data s.idx v)).length = s.n := by
      rw [List.length_map, List.length_range]
    have hrotate := List.rotate_mod ((List.range s.n).map (Function.update s.data s.idx v)) (s.idx + 1)
    rw [hlen] at hrotate
    rw [Nat.min_eq_right (by omega), hrotate, map_update_range, rotate_set, queue, hfull]
    rw [List.length_map, List.length_range]
    exact hc.idx_lt

def positions (s : RollingMedian Item) : List ℤ :=
  (List.range s.maxCt).map (fun k : ℕ => -((k + 1 : ℕ) : ℤ)) ++
    0 :: (List.range s.minCt).map fun k : ℕ => ((k + 1 : ℕ) : ℤ)

theorem mem_positions {i : ℤ} : i ∈ positions s ↔ Active s i := by
  simp only [positions, List.mem_append, List.mem_map, List.mem_range, List.mem_cons, Active]
  constructor
  · rintro (⟨k, hk, rfl⟩ | rfl | ⟨k, hk, rfl⟩) <;> omega
  · rintro ⟨hlow, hhigh⟩
    rcases lt_trichotomy i 0 with hneg | hzero | hpos
    · exact .inl ⟨i.natAbs - 1, by omega, by omega⟩
    · exact .inr (.inl hzero)
    · exact .inr (.inr ⟨i.natAbs - 1, by omega, by omega⟩)

theorem nodup_positions : (positions s).Nodup := by
  have hmax : ((List.range s.maxCt).map fun k : ℕ => -((k + 1 : ℕ) : ℤ)).Nodup :=
    List.nodup_range.map fun j k (heq : -((j + 1 : ℕ) : ℤ) = -((k + 1 : ℕ) : ℤ)) => by omega
  have hmin : ((List.range s.minCt).map fun k : ℕ => ((k + 1 : ℕ) : ℤ)).Nodup :=
    List.nodup_range.map fun j k (heq : ((j + 1 : ℕ) : ℤ) = ((k + 1 : ℕ) : ℤ)) => by omega
  rw [positions, List.nodup_append, List.nodup_cons]
  simp only [List.mem_map, List.mem_range, List.mem_cons]
  refine ⟨hmax, ⟨?_, hmin⟩, ?_⟩
  · rintro ⟨k, hk, heq⟩
    omega
  · rintro i ⟨k, hk, rfl⟩ j (rfl | ⟨m, hm, rfl⟩) <;> omega

theorem heap_positions_perm (h : Shape s) (hsz : 0 < s.sz) : ((positions s).map s.heap).Perm (List.range s.sz) := by
  have hle := h.sz_le
  have hinj : ∀ i ∈ positions s, ∀ j ∈ positions s, s.heap i = s.heap j → i = j := by
    intro i hi j hj heq
    rw [← h.linked.pos_heap i (h.inRange (mem_positions.mp hi)), heq,
      h.linked.pos_heap j (h.inRange (mem_positions.mp hj))]
  refine (List.perm_ext_iff_of_nodup (nodup_positions.map_on hinj) List.nodup_range).mpr fun k => ?_
  rw [List.mem_map, List.mem_range]
  constructor
  · rintro ⟨i, hi, rfl⟩
    have hactive := mem_positions.mp hi
    have hrange := h.inRange hactive
    by_contra hge
    have hpos := h.fresh _ (Nat.le_of_not_lt hge) (h.linked.heap_lt i hrange)
    rw [h.linked.pos_heap i hrange] at hpos
    rw [h.active_iff, hpos, inRange_initialPos_iff hsz] at hactive
    exact hge hactive
  · intro hk
    refine ⟨s.pos k, mem_positions.mpr ?_, h.linked.heap_pos k (by omega)⟩
    obtain ⟨m, hm, hplace⟩ := (inRange_iff h.n_pos).mp (h.linked.inRange_pos k (by omega))
    rw [h.active_iff, ← hplace, inRange_initialPos_iff hsz]
    -- a place that is still free has its own item
    by_contra hge
    have hfree := h.fresh m (Nat.le_of_not_lt hge) hm
    have hsame : m = k := by
      rw [← h.linked.heap_pos m hm, hfree, hplace, h.linked.heap_pos k (by omega)]
    omega

theorem queue_perm (h : Shape s) (hsz : 0 < s.sz) :
    (queue s).Perm ((List.range s.maxCt).map (fun k => maxKey s (k + 1)) ++
      s.item 0 :: (List.range s.minCt).map fun k => minKey s (k + 1)) := by
  have hitems : ((positions s).map s.heap).map s.data =
      (List.range s.maxCt).map (fun k => maxKey s (k + 1)) ++
        s.item 0 :: (List.range s.minCt).map fun k => minKey s (k + 1) := by
    rw [positions, List.map_append, List.map_append, List.map_cons, List.map_cons, List.map_map, List.map_map,
      List.map_map, List.map_map]
    rfl
  rw [← hitems]
  exact (List.rotate_perm _ _).trans ((heap_positions_perm h hsz).map s.data).symm

end

section

variable [LT Item] [DecidableLT Item] [LE Item] [Std.LawfulOrderLT Item] [Std.IsLinearPreorder Item]
  {s : RollingMedian Item} {v : Item}

theorem insert_valid (h : Valid s) :
    Valid (insert v s) ∧ (insert v s).n = s.n ∧
      queue (insert v s) = if s.sz < s.n then queue s ++ [v] else (queue s).tail ++ [v] := by
  have hn := h.shape.n_pos
  obtain ⟨hmoved, horder⟩ := insert_order (v := v) h.shape h.cycled h.order
  have hnum : (insert v s).n = s.n := hmoved.n
  have hidx : (insert v s).idx = (s.idx + 1) % s.n := hmoved.idx
  have hsz : (insert v s).sz = min (s.sz + 1) s.n := hmoved.sz
  refine ⟨⟨hmoved.shape, ⟨?_, fun hroom => ?_⟩, horder⟩, hnum, ?_⟩
  · rw [hidx, hnum]
    exact Nat.mod_lt _ hn
  · rw [hsz, hnum] at hroom
    rw [hidx, hsz, h.cycled.idx_eq (by omega), Nat.mod_eq_of_lt (by omega)]
    omega
  · rw [← queue_written h.shape h.cycled, queue, queue, hmoved.data, hmoved.sz, hmoved.idx]

end

section

open Velkavo.Core

def median (s : RollingMedian UInt64) : UInt64 :=
  let v := s.item 0
  if s.minCt < s.maxCt then getMid v (s.item (-1)) else v

theorem getMid_comm (a b : UInt64) : getMid a b = getMid b a := by
  rw [getMid, getMid, UInt64.add_comm (a / 2), UInt64.add_comm (a - _)]

theorem sorted_getD {l a b : List UInt64} {x : UInt64} (h : l.Perm (a ++ x :: b)) (ha : ∀ y ∈ a, y ≤ x)
    (hb : ∀ y ∈ b, x ≤ y) : (sorted l).getD a.length 0 = x := by
  have hsplit : sorted l = sorted a ++ x :: sorted b := by
    have hperm : (sorted l).Perm (sorted a ++ x :: sorted b) :=
      (List.perm_insertionSort _ l).trans
        (h.trans ((List.perm_insertionSort _ a).symm.append ((List.perm_insertionSort _ b).symm.cons x)))
    refine List.Perm.eq_of_pairwise' (List.pairwise_insertionSort _ _) ?_ hperm
    have hbefore : ∀ y ∈ sorted a, y ≤ x := fun y hy => ha y ((List.perm_insertionSort _ a).mem_iff.mp hy)
    have hafter : ∀ y ∈ sorted b, x ≤ y := fun y hy => hb y ((List.perm_insertionSort _ b).mem_iff.mp hy)
    rw [List.pairwise_append, List.pairwise_cons]
    refine ⟨List.pairwise_insertionSort _ _, ⟨hafter, List.pairwise_insertionSort _ _⟩, fun y hy z hz => ?_⟩
    rcases List.mem_cons.mp hz with rfl | hz
    · exact hbefore y hy
    · exact UInt64.le_trans (hbefore y hy) (hafter z hz)
  have hlen : (sorted a).length = a.length := (List.perm_insertionSort _ a).length_eq
  rw [hsplit, List.getD_eq_getElem?_getD, List.getElem?_append_right (by omega), hlen, Nat.sub_self]
  rfl

variable {s : RollingMedian UInt64}

theorem item_zero_le (h : Valid s) : ∀ y ∈ (List.range s.minCt).map fun k => minKey s (k + 1), s.item 0 ≤ y := by
  intro y hy
  obtain ⟨k, hk, rfl⟩ := List.mem_map.mp hy
  exact h.order.above.root_le (Nat.succ_pos k) (List.mem_range.mp hk)

theorem le_item_zero (h : Valid s) : ∀ y ∈ (List.range s.maxCt).map fun k => maxKey s (k + 1), y ≤ s.item 0 := by
  intro y hy
  obtain ⟨k, hk, rfl⟩ := List.mem_map.mp hy
  exact h.order.below.root_le (Nat.succ_pos k) (List.mem_range.mp hk)

theorem sorted_queue_median (h : Valid s) (hsz : 0 < s.sz) : (sorted (queue s)).getD s.maxCt 0 = s.item 0 := by
  have hmiddle := sorted_getD (queue_perm h.shape hsz) (le_item_zero h) (item_zero_le h)
  rwa [List.length_map, List.length_range] at hmiddle

theorem sorted_queue_below (h : Valid s) (hct : 0 < s.maxCt) :
    (sorted (queue s)).getD (s.maxCt - 1) 0 = s.item (-1) := by
  obtain ⟨m, hm⟩ : ∃ m, s.maxCt = m + 1 := ⟨s.maxCt - 1, by omega⟩
  have hcount := h.shape.maxCt_eq
  have hle := le_item_zero h
  have hperm := queue_perm h.shape (by omega)
  have hfirst : (List.range s.maxCt).map (fun k => maxKey s (k + 1)) =
      maxKey s 1 :: (List.range m).map fun k => maxKey s (k + 2) := by
    rw [hm, List.range_succ_eq_map, List.map_cons, List.map_map]
    rfl
  rw [hfirst, List.cons_append] at hperm
  rw [hfirst] at hle
  have htop := hle _ List.mem_cons_self
  have hgreatest : ∀ y ∈ (List.range m).map fun k => maxKey s (k + 2), y ≤ maxKey s 1 := by
    intro y hy
    obtain ⟨k, hk, rfl⟩ := List.mem_map.mp hy
    have hlt := List.mem_range.mp hk
    exact h.order.below.first_le (by omega) (by omega)
  have hbelow := sorted_getD (hperm.trans List.perm_middle.symm) hgreatest fun y hy => by
    rcases List.mem_cons.mp hy with rfl | hy
    · exact htop
    · exact UInt64.le_trans htop (item_zero_le h y hy)
  rw [List.length_map, List.length_range] at hbelow
  rw [hm, Nat.add_sub_cancel, hbelow]
  rfl

theorem median_eq (h : Valid s) (hsz : 0 < s.sz) : s.median = Core.median (queue s) := by
  have hmin := h.shape.minCt_eq
  have hmax := h.shape.maxCt_eq
  have hlen : (queue s).length = s.sz := length_queue
  have hne : queue s ≠ [] := by
    rw [← List.length_pos_iff, hlen]
    exact hsz
  rw [median, Core.median, if_neg hne, hlen, ← hmax]
  by_cases heven : s.minCt < s.maxCt
  · rw [if_pos heven, if_neg (by omega), sorted_queue_median h hsz, sorted_queue_below h (by omega), getMid_comm]
  · rw [if_neg heven, if_pos (by omega), sorted_queue_median h hsz]

end

section

inductive Call (Item : Type) where
  | insert (v : Item)
  | clear

def inserted (calls : List (Call Item)) : List Item :=
  calls.foldl (fun items call => match call with
    | .insert v => items ++ [v]
    | .clear => []) []

def recent (n : ℕ) (items : List Item) : List Item := items.drop (items.length - n)

theorem length_recent (n : ℕ) (items : List Item) : (recent n items).length = min n items.length := by
  rw [recent, List.length_drop]
  omega

theorem recent_append {n : ℕ} (hn : 0 < n) (items : List Item) (v : Item) :
    recent n (items ++ [v]) =
      if (recent n items).length < n then recent n items ++ [v] else (recent n items).tail ++ [v] := by
  rw [length_recent]
  have hlen : (items ++ [v]).length = items.length + 1 := List.length_append
  split_ifs with hroom
  · rw [recent, recent, hlen, Nat.sub_eq_zero_of_le (by omega), Nat.sub_eq_zero_of_le (by omega), List.drop_zero,
      List.drop_zero]
  · rw [recent, recent, hlen, List.tail_drop, List.drop_append_of_le_length (by omega)]
    congr 2
    omega

variable [LT Item] [DecidableLT Item]

def step (s : RollingMedian Item) : Call Item → RollingMedian Item
  | .insert v => s.insert v
  | .clear => s.clear

def insertIn (s : RollingMedian Item) (v : Item) : RollingMedian Item := s.insert v

variable [LE Item] [Std.LawfulOrderLT Item] [Std.IsLinearPreorder Item]

theorem insert_recent {n : ℕ} {s : RollingMedian Item} {items : List Item} (h : Valid s) (hnum : s.n = n)
    (hqueue : queue s = recent n items) (v : Item) :
    Valid (s.insert v) ∧ (s.insert v).n = n ∧ queue (s.insert v) = recent n (items ++ [v]) := by
  obtain ⟨hvalid, hnum', hqueue'⟩ := insert_valid (v := v) h
  have hsz : s.sz = (recent n items).length := by rw [← hqueue, length_queue]
  have hn := h.shape.n_pos
  refine ⟨hvalid, hnum'.trans hnum, ?_⟩
  rw [hqueue', hsz, hnum, hqueue, recent_append (by omega)]

theorem foldl_insert_recent {n : ℕ} {s : RollingMedian Item} {items : List Item} (h : Valid s) (hnum : s.n = n)
    (hqueue : queue s = recent n items) (added : List Item) :
    Valid (added.foldl insertIn s) ∧ (added.foldl insertIn s).n = n ∧
      queue (added.foldl insertIn s) = recent n (items ++ added) := by
  induction added generalizing s items with
  | nil =>
    rw [List.append_nil]
    exact ⟨h, hnum, hqueue⟩
  | cons v added ih =>
    obtain ⟨hvalid, hnum', hqueue'⟩ := insert_recent h hnum hqueue v
    rw [List.foldl_cons, List.append_cons]
    exact ih hvalid hnum' hqueue'

theorem run_valid {n : ℕ} (hn : 0 < n) (data : ℕ → Item) (pos : ℕ → ℤ) (heap : ℤ → ℕ) (calls : List (Call Item)) :
    Valid (calls.foldl step (new n data pos heap)) ∧ (calls.foldl step (new n data pos heap)).n = n ∧
      queue (calls.foldl step (new n data pos heap)) = recent n (inserted calls) := by
  induction calls using List.reverseRecOn with
  | nil =>
    obtain ⟨hvalid, hnum, hqueue⟩ := new_valid hn data pos heap
    exact ⟨hvalid, hnum, hqueue.trans List.drop_nil.symm⟩
  | append_singleton calls call ih =>
    obtain ⟨hvalid, hnum, hqueue⟩ := ih
    rw [List.foldl_append, List.foldl_cons, List.foldl_nil, inserted, List.foldl_append, List.foldl_cons,
      List.foldl_nil]
    cases call with
    | insert v => exact insert_recent hvalid hnum hqueue v
    | clear =>
      obtain ⟨hvalid', hnum', hqueue'⟩ := clear_valid (s := calls.foldl step (new n data pos heap)) (by omega)
      exact ⟨hvalid', hnum'.trans hnum, hqueue'.trans List.drop_nil.symm⟩

end

end Velkavo.Epee.RollingMedian
