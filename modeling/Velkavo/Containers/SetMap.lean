import Velkavo.Containers.UnorderedMap
import Mathlib.Algebra.Group.Action.Defs
import Mathlib.Combinatorics.Enumerative.DoubleCounting

/-! Maps from keys to finite sets, read as relations between keys and values. -/

@[ext]
structure UnorderedSet (α : Type) where
  elements : List α
  nodup : elements.Nodup

namespace UnorderedSet

variable {α : Type}

instance : EmptyCollection (UnorderedSet α) := ⟨⟨[], List.nodup_nil⟩⟩

instance : Membership α (UnorderedSet α) := ⟨fun s x => x ∈ s.elements⟩

def size (s : UnorderedSet α) : ℕ := s.elements.length

@[simp]
theorem notMem_empty (x : α) : x ∉ (∅ : UnorderedSet α) := List.not_mem_nil

variable {s : UnorderedSet α} {y : α}

theorem size_eq_zero_iff : s.size = 0 ↔ ∀ x, x ∉ s :=
  List.length_eq_zero_iff.trans List.eq_nil_iff_forall_not_mem

variable [DecidableEq α]

instance (s : UnorderedSet α) (x : α) : Decidable (x ∈ s) := inferInstanceAs (Decidable (x ∈ s.elements))

def insert (s : UnorderedSet α) (x : α) : UnorderedSet α := ⟨s.elements.insert x, s.nodup.insert⟩

def erase (s : UnorderedSet α) (x : α) : UnorderedSet α := ⟨s.elements.erase x, s.nodup.erase x⟩

@[simp]
theorem mem_insert {x : α} : y ∈ s.insert x ↔ y = x ∨ y ∈ s := List.mem_insert_iff

@[simp]
theorem mem_erase {x : α} : y ∈ s.erase x ↔ y ≠ x ∧ y ∈ s := s.nodup.mem_erase_iff

theorem mem_foldl_insert {l : List α} : y ∈ l.foldl insert s ↔ y ∈ l ∨ y ∈ s := by
  induction l generalizing s with
  | nil => simp
  | cons x rest ih =>
    rw [List.foldl_cons, ih, mem_insert, List.mem_cons, or_left_comm, or_assoc]

theorem mem_foldl_erase {l : List α} : y ∈ l.foldl erase s ↔ y ∉ l ∧ y ∈ s := by
  induction l generalizing s with
  | nil => simp
  | cons x rest ih =>
    rw [List.foldl_cons, ih, mem_erase, List.mem_cons, not_or, and_left_comm, and_assoc]

theorem size_eq_card {t : Finset α} (h : ∀ x, x ∈ s ↔ x ∈ t) : s.size = t.card := by
  have ht : s.elements.toFinset = t := by
    apply Finset.ext
    intro x
    rw [List.mem_toFinset]
    exact h x
  rw [← ht, List.toFinset_card_of_nodup s.nodup]
  rfl

end UnorderedSet

abbrev SetMap (κ ν : Type) := UnorderedMap κ (UnorderedSet ν)

namespace SetMap

open UnorderedMap

variable {κ ν α : Type}

theorem sum_size_eq_mul {l : List (κ × UnorderedSet ν)} {n : ℕ} (h : ∀ e ∈ l, e.2.size = n) :
    (l.map fun e => e.2.size).sum = l.length * n := by
  rw [List.map_congr_left h, List.map_const', List.sum_replicate, smul_eq_mul]

variable [DecidableEq κ]

def Rel (m : SetMap κ ν) (k : κ) (x : ν) : Prop := ∃ s, m.find? k = some s ∧ x ∈ s

def Occupied (m : SetMap κ ν) : Prop := ∀ k s, m.find? k = some s → ∃ x, x ∈ s

variable {k : κ} {m : SetMap κ ν} {x : ν}

theorem rel_iff_of_find? {s : UnorderedSet ν} (h : m.find? k = some s) (x : ν) :
    m.Rel k x ↔ x ∈ s := by
  rw [Rel, h]
  exact ⟨fun ⟨t, ht, hx⟩ => Option.some_inj.mp ht ▸ hx, fun hx => ⟨s, rfl, hx⟩⟩

theorem not_rel_empty (k : κ) (x : ν) : ¬(∅ : SetMap κ ν).Rel k x := by
  rintro ⟨s, hs, -⟩
  cases hs

theorem occupied_empty : (∅ : SetMap κ ν).Occupied := by
  intro k s hs
  cases hs

theorem Occupied.mem_keys_iff (h : m.Occupied) : k ∈ m.keys ↔ ∃ x, m.Rel k x := by
  rw [UnorderedMap.mem_keys_iff]
  constructor
  · rintro ⟨s, hs⟩
    obtain ⟨x, hx⟩ := h k s hs
    exact ⟨x, s, hs, hx⟩
  · rintro ⟨x, s, hs, -⟩
    exact ⟨s, hs⟩

variable [DecidableEq ν]

def insertAt (m : SetMap κ ν) (k : κ) (x : ν) : SetMap κ ν := m.upsert k fun s => (s.getD ∅).insert x

def eraseFromSets (m : SetMap κ ν) (x : ν) : SetMap κ ν :=
  m.filterMapValues fun s => if (s.erase x).size = 0 then none else some (s.erase x)

theorem rel_insertAt {k' : κ} {x' : ν} :
    (m.insertAt k x).Rel k' x' ↔ (k' = k ∧ x' = x) ∨ m.Rel k' x' := by
  rw [Rel, insertAt]
  simp only [find?_upsert]
  by_cases hk : k' = k
  · subst hk
    rw [if_pos rfl]
    cases hfind : m.find? k' with
    | none => simp [Rel, hfind]
    | some s => simp [Rel, hfind]
  · simp [Rel, hk]

theorem Occupied.insertAt (h : m.Occupied) (k : κ) (x : ν) : (m.insertAt k x).Occupied := by
  intro k' s hs
  rw [SetMap.insertAt, find?_upsert] at hs
  split_ifs at hs with hk
  · cases hs
    exact ⟨x, UnorderedSet.mem_insert.mpr (.inl rfl)⟩
  · exact h k' s hs

theorem rel_foldl_insertAt (f : α → κ × ν) (l : List α) (m : SetMap κ ν) (k : κ) (x : ν) :
    (l.foldl (fun m a => m.insertAt (f a).1 (f a).2) m).Rel k x ↔ m.Rel k x ∨ ∃ a ∈ l, f a = (k, x) := by
  induction l generalizing m with
  | nil => simp
  | cons a l ih =>
    rw [List.foldl_cons, ih, rel_insertAt]
    simp only [List.mem_cons, exists_eq_or_imp, Prod.ext_iff]
    tauto

theorem Occupied.foldl_insertAt (h : m.Occupied) (f : α → κ × ν) (l : List α) :
    (l.foldl (fun m a => m.insertAt (f a).1 (f a).2) m).Occupied := by
  induction l generalizing m with
  | nil => exact h
  | cons a l ih => exact ih (h.insertAt _ _)

theorem find?_eraseFromSets {t : UnorderedSet ν} :
    (m.eraseFromSets x).find? k = some t ↔ ∃ s, m.find? k = some s ∧ (∃ y, y ∈ s.erase x) ∧ t = s.erase x := by
  rw [eraseFromSets, find?_filterMapValues, Option.bind_eq_some_iff]
  apply exists_congr
  intro s
  apply and_congr_right
  intro _
  have hzero : (s.erase x).size = 0 ↔ ¬∃ y, y ∈ s.erase x := by
    rw [UnorderedSet.size_eq_zero_iff, not_exists]
  by_cases hs : ∃ y, y ∈ s.erase x
  · rw [if_neg (fun h => hzero.mp h hs), and_iff_right hs, Option.some_inj]
    exact eq_comm
  · rw [if_pos (hzero.mpr hs)]
    exact iff_of_false (Option.some_ne_none t).symm fun h => hs h.1

theorem rel_eraseFromSets {y : ν} :
    (m.eraseFromSets x).Rel k y ↔ y ≠ x ∧ m.Rel k y := by
  simp only [Rel, find?_eraseFromSets]
  constructor
  · rintro ⟨t, ⟨s, hs, -, rfl⟩, hy⟩
    have hy := UnorderedSet.mem_erase.mp hy
    exact ⟨hy.1, s, hs, hy.2⟩
  · rintro ⟨hne, s, hs, hy⟩
    have hmem : y ∈ s.erase x := UnorderedSet.mem_erase.mpr ⟨hne, hy⟩
    exact ⟨s.erase x, ⟨s, hs, ⟨y, hmem⟩, rfl⟩, hmem⟩

theorem occupied_eraseFromSets (m : SetMap κ ν) (x : ν) : (m.eraseFromSets x).Occupied := by
  intro k t ht
  obtain ⟨s, -, hs, rfl⟩ := find?_eraseFromSets.mp ht
  exact hs

def transpose (m : SetMap κ ν) : SetMap ν κ :=
  m.entries.foldl (fun t e => e.2.elements.foldl (fun t x => t.insertAt x e.1) t) ∅

private theorem transpose_foldl (l : List (κ × UnorderedSet ν)) (t : SetMap ν κ) (ht : t.Occupied) :
    (l.foldl (fun t e => e.2.elements.foldl (fun t x => t.insertAt x e.1) t) t).Occupied ∧
      ∀ x k, (l.foldl (fun t e => e.2.elements.foldl (fun t x => t.insertAt x e.1) t) t).Rel x k ↔
        t.Rel x k ∨ ∃ s, (k, s) ∈ l ∧ x ∈ s := by
  induction l generalizing t with
  | nil => exact ⟨ht, by simp⟩
  | cons e l ih =>
    obtain ⟨hocc, hrel⟩ := ih _ (ht.foldl_insertAt (fun x => (x, e.1)) e.2.elements)
    refine ⟨hocc, fun x k => ?_⟩
    rw [List.foldl_cons, hrel, rel_foldl_insertAt (fun x => (x, e.1)), or_assoc]
    apply or_congr_right
    simp only [List.mem_cons, Prod.mk.injEq, or_and_right, exists_or]
    apply or_congr_left
    constructor
    · rintro ⟨y, hy, rfl, rfl⟩
      exact ⟨e.2, rfl, hy⟩
    · rintro ⟨s, rfl, hx⟩
      exact ⟨x, hx, rfl, rfl⟩

theorem rel_transpose : m.transpose.Rel x k ↔ m.Rel k x := by
  rw [transpose, (transpose_foldl m.entries ∅ occupied_empty).2 x k, or_iff_right (not_rel_empty x k), Rel]
  simp only [mem_entries_iff]

theorem occupied_transpose (m : SetMap κ ν) : m.transpose.Occupied :=
  (transpose_foldl m.entries ∅ occupied_empty).1

open Classical in
theorem sum_size (m : SetMap κ ν) {t : Finset ν} (ht : ∀ k x, m.Rel k x → x ∈ t) :
    (m.entries.map fun e => e.2.size).sum = ∑ k ∈ m.keys.toFinset, (t.bipartiteAbove m.Rel k).card := by
  rw [List.sum_toFinset _ m.nodup_keys, keys, List.map_map]
  congr 1
  apply List.map_congr_left
  rintro ⟨k, s⟩ he
  have hs : m.find? k = some s := mem_entries_iff.mp he
  apply UnorderedSet.size_eq_card
  intro x
  rw [Finset.mem_bipartiteAbove, rel_iff_of_find? hs]
  exact ⟨fun hx => ⟨ht k x ⟨s, hs, hx⟩, hx⟩, fun h => h.2⟩

theorem sum_size_transpose (m : SetMap κ ν) (hm : m.Occupied) :
    (m.transpose.entries.map fun e => e.2.size).sum = (m.entries.map fun e => e.2.size).sum := by
  classical
  have hkeys : ∀ x k, m.transpose.Rel x k → k ∈ m.keys.toFinset := fun x k h =>
    List.mem_toFinset.mpr (hm.mem_keys_iff.mpr ⟨x, rel_transpose.mp h⟩)
  have hvalues : ∀ k x, m.Rel k x → x ∈ m.transpose.keys.toFinset := fun k x h =>
    List.mem_toFinset.mpr ((occupied_transpose m).mem_keys_iff.mpr ⟨k, rel_transpose.mpr h⟩)
  rw [sum_size m hvalues, sum_size m.transpose hkeys,
    Finset.sum_card_bipartiteAbove_eq_sum_card_bipartiteBelow]
  apply Finset.sum_congr rfl
  intro k _
  rw [Finset.bipartiteBelow, Finset.bipartiteAbove]
  simp only [rel_transpose]

end SetMap
