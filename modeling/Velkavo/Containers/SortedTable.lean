import Velkavo.Containers.OrderedMap
import Mathlib.Data.List.Perm.Basic

/-! Ordered maps as the tables of a store: rows put at the end, and cursors that step through the rows. -/

namespace OrderedMap

variable {κ ι ν : Type} [LinearOrder ι] {key : κ → ι}

def size (m : OrderedMap key ν) : ℕ := m.entries.length

def append (m : OrderedMap key ν) (k : κ) (v : ν) : Option (OrderedMap key ν) :=
  if ∀ x ∈ m.entries, key x.1 < key k then some (m.assign k v) else none

theorem find?_erase (m : OrderedMap key ν) (k k' : κ) :
    (m.erase k).find? k' = if key k' = key k then none else m.find? k' := by
  split_ifs with hk
  · rw [find?_eq_none_iff]
    intro x hx
    rw [hk]
    simpa [erase, filter] using (List.mem_filter.mp hx).2
  · rw [find?, find?, erase, filter, List.find?_filter]
    congr 2
    funext x
    by_cases hx : key x.1 = key k'
    · simp [hx, hk]
    · simp [hx]

theorem mem_entries_iff (hkey : Function.Injective key) (m : OrderedMap key ν) (k : κ) (v : ν) :
    (k, v) ∈ m.entries ↔ m.find? k = some v := by
  rw [find?_eq_some_iff]
  constructor
  · exact fun h => ⟨k, h, rfl⟩
  · rintro ⟨k', hmem, hk⟩
    exact hkey hk ▸ hmem

variable {k : κ} {m : OrderedMap key ν} {v : ν} {p : κ × ν → Bool}

theorem mem_erase {x : κ × ν} :
    x ∈ (m.erase k).entries ↔ x ∈ m.entries ∧ key x.1 ≠ key k := by
  rw [erase, filter, List.mem_filter, decide_eq_true_eq]

theorem ext_find? (hkey : Function.Injective key) {m' : OrderedMap key ν} (h : ∀ k, m.find? k = m'.find? k) :
    m = m' := by
  have hnodup : ∀ m : OrderedMap key ν, m.entries.Nodup := fun m =>
    m.sorted.imp fun hlt heq => absurd (heq ▸ hlt) (lt_irrefl _)
  have hperm : m.entries.Perm m'.entries := by
    refine (List.perm_ext_iff_of_nodup (hnodup m) (hnodup m')).mpr fun x => ?_
    rw [show x = (x.1, x.2) from rfl, mem_entries_iff hkey, mem_entries_iff hkey, h]
  refine OrderedMap.ext (hperm.eq_of_pairwise (fun x y _ _ hlt hgt => ?_) m.sorted m'.sorted)
  exact absurd hgt hlt.not_gt

theorem erase_assign (hkey : Function.Injective key) (h : m.find? k = none) (v : ν) :
    (m.assign k v).erase k = m := by
  refine ext_find? hkey fun k' => ?_
  rw [find?_erase, find?_assign]
  split_ifs with hk
  · rw [hkey hk, h]
  · rfl

theorem assign_erase (hkey : Function.Injective key) (h : m.find? k = some v) :
    (m.erase k).assign k v = m := by
  refine ext_find? hkey fun k' => ?_
  rw [find?_assign, find?_erase]
  split_ifs with hk
  · rw [hkey hk, h]
  · rfl

theorem erase_assign_eq_assign (hkey : Function.Injective key) (m : OrderedMap key ν) (k : κ) (v : ν) :
    (m.erase k).assign k v = m.assign k v := by
  refine ext_find? hkey fun k' => ?_
  rw [find?_assign, find?_assign, find?_erase]
  split_ifs <;> rfl

theorem perm_assignEntries (v : ν) {l : List (κ × ν)} (h : ∀ x ∈ l, key x.1 ≠ key k) :
    (assignEntries key k v l).Perm ((k, v) :: l) := by
  induction l with
  | nil => exact .refl _
  | cons x rest ih =>
    have hx := h x List.mem_cons_self
    rw [assignEntries]
    split_ifs with hlt hgt
    · exact .refl _
    · exact ((ih fun y hy => h y (List.mem_cons_of_mem _ hy)).cons x).trans (.swap (k, v) x rest)
    · exact absurd (le_antisymm (not_lt.mp hlt) (not_lt.mp hgt)) hx

theorem perm_assign (h : m.find? k = none) (v : ν) :
    (m.assign k v).entries.Perm ((k, v) :: m.entries) :=
  perm_assignEntries v ((find?_eq_none_iff m k).mp h)

theorem mem_emplace {x y : κ × ν} (h : m.find? x.1 = none) :
    y ∈ (m.emplace x).entries ↔ y = x ∨ y ∈ m.entries := by
  rw [emplace, h, Option.isSome_none, if_neg Bool.false_ne_true, (perm_assign h x.2).mem_iff, List.mem_cons]

theorem emplace_found {x : κ × ν} (h : m.find? x.1 ≠ none) : m.emplace x = m := by
  rw [emplace, if_pos (Option.isSome_iff_ne_none.mpr h)]

theorem size_assign (h : m.find? k = none) (v : ν) : (m.assign k v).size = m.size + 1 :=
  (perm_assign h v).length_eq

def keys (m : OrderedMap key ν) : List κ := m.entries.map Prod.fst

theorem perm_erase (hkey : Function.Injective key) (h : m.find? k = some v) :
    m.entries.Perm ((k, v) :: (m.erase k).entries) := by
  have hnone : (m.erase k).find? k = none := by rw [find?_erase, if_pos rfl]
  have hperm := perm_assign hnone v
  rwa [assign_erase hkey h] at hperm

theorem nodup_keys (m : OrderedMap key ν) : m.keys.Nodup := by
  rw [keys, List.Nodup, List.pairwise_map]
  exact m.sorted.imp fun hlt heq => absurd (congrArg key heq ▸ hlt) (lt_irrefl _)

theorem append_eq_some {m' : OrderedMap key ν} (h : m.append k v = some m') :
    m' = m.assign k v ∧ ∀ x ∈ m.entries, key x.1 < key k := by
  rw [append] at h
  split_ifs at h with hlt
  exact ⟨(Option.some.inj h).symm, hlt⟩

theorem find?_eq_none_of_lt (h : ∀ x ∈ m.entries, key x.1 < key k) : m.find? k = none :=
  (find?_eq_none_iff m k).mpr fun x hx => (h x hx).ne

theorem entries_assign_of_lt (h : ∀ x ∈ m.entries, key x.1 < key k) :
    (m.assign k v).entries = m.entries ++ [(k, v)] :=
  assignEntries_append v h

theorem filter_assign (hnew : m.find? k = none) {l : List (κ × ν)}
    (hperm : (((k, v) :: m.entries).filter p).Perm l) (hsorted : l.Pairwise fun x y => key x.1 < key y.1) :
    (m.assign k v).entries.filter p = l :=
  (((perm_assign hnew v).filter p).trans hperm).eq_of_pairwise (fun _ _ _ _ hlt hgt => absurd (hlt.trans hgt) (lt_irrefl _))
    ((m.assign k v).sorted.filter p) hsorted

theorem filter_assign_last (hp : p (k, v) = true)
    (h : ∀ x ∈ m.entries, p x = true → key x.1 < key k) (hnew : m.find? k = none) :
    (m.assign k v).entries.filter p = m.entries.filter p ++ [(k, v)] := by
  apply filter_assign hnew
  · rw [List.filter_cons_of_pos hp]
    exact (List.perm_append_singleton _ _).symm
  · refine List.pairwise_append.mpr ⟨m.sorted.filter p, List.pairwise_singleton _ _, fun x hx y hy => ?_⟩
    obtain ⟨hx, hpx⟩ := List.mem_filter.mp hx
    rw [List.mem_singleton.mp hy]
    exact h x hx hpx

theorem filter_assign_other (hp : p (k, v) = false)
    (hnew : m.find? k = none) : (m.assign k v).entries.filter p = m.entries.filter p := by
  apply filter_assign hnew
  · rw [List.filter_cons_of_neg (by rw [hp]; exact Bool.false_ne_true)]
  · exact m.sorted.filter p

end OrderedMap
