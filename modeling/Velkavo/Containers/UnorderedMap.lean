import Mathlib.Data.List.Induction
import Mathlib.Data.List.Nodup

@[ext]
structure UnorderedMap (κ ν : Type) where
  entries : List (κ × ν)
  nodup : (entries.map Prod.fst).Nodup

namespace UnorderedMap

variable {κ ν : Type}

instance : EmptyCollection (UnorderedMap κ ν) := ⟨⟨[], List.nodup_nil⟩⟩

def keys (m : UnorderedMap κ ν) : List κ := m.entries.map Prod.fst

@[simp]
theorem entries_empty : (∅ : UnorderedMap κ ν).entries = [] := rfl

@[simp]
theorem keys_empty : (∅ : UnorderedMap κ ν).keys = [] := rfl

theorem nodup_keys (m : UnorderedMap κ ν) : m.keys.Nodup := m.nodup

@[simp]
theorem length_keys (m : UnorderedMap κ ν) : m.keys.length = m.entries.length := List.length_map _

def filterMapValues (m : UnorderedMap κ ν) (f : ν → Option ν) : UnorderedMap κ ν :=
  ⟨m.entries.filterMap fun x => (f x.2).map (x.1, ·), by
    have hkeys : (m.entries.filterMap fun x => (f x.2).map (x.1, ·)).map Prod.fst =
        (m.entries.filter fun x => (f x.2).isSome).map Prod.fst := by
      induction m.entries with
      | nil => rfl
      | cons x l ih => cases h : f x.2 <;> simp [h, ih]
    rw [hkeys]
    exact m.nodup.sublist (List.filter_sublist.map _)⟩

variable [DecidableEq κ]

def emplace (m : UnorderedMap κ ν) (x : κ × ν) : UnorderedMap κ ν :=
  if h : x.1 ∈ m.entries.map Prod.fst then m
  else ⟨m.entries ++ [x], by
    rw [List.map_append, List.map_singleton]
    exact List.Nodup.append m.nodup (List.nodup_singleton _) (by simpa using h)⟩

def upsert (m : UnorderedMap κ ν) (k : κ) (f : Option ν → ν) : UnorderedMap κ ν :=
  if h : k ∈ m.entries.map Prod.fst then
    ⟨m.entries.map fun x => (x.1, if x.1 = k then f (some x.2) else x.2), by
      rw [List.map_map]
      exact m.nodup⟩
  else ⟨m.entries ++ [(k, f none)], by
    rw [List.map_append, List.map_singleton]
    exact List.Nodup.append m.nodup (List.nodup_singleton _) (by simpa using h)⟩

def erase (m : UnorderedMap κ ν) (k : κ) : UnorderedMap κ ν :=
  ⟨m.entries.filter fun x => decide (x.1 ≠ k), m.nodup.sublist (List.filter_sublist.map _)⟩

def ofList (l : List (κ × ν)) : UnorderedMap κ ν := l.foldl emplace ∅

def find? (m : UnorderedMap κ ν) (k : κ) : Option ν :=
  (m.entries.find? fun x => decide (x.1 = k)).map Prod.snd

variable {k : κ} {m : UnorderedMap κ ν}

theorem mem_of_find? {v : ν} (h : m.find? k = some v) :
    (k, v) ∈ m.entries := by
  obtain ⟨⟨k', v'⟩, hfind, rfl⟩ := Option.map_eq_some_iff.mp h
  obtain rfl : k' = k := by simpa using List.find?_some hfind
  exact List.mem_of_find?_eq_some hfind

theorem mem_of_mem_emplace {x y : κ × ν} (h : y ∈ (m.emplace x).entries) :
    y ∈ m.entries ∨ y = x := by
  rw [emplace] at h
  split_ifs at h
  · exact .inl h
  · simpa using h

theorem mem_of_mem_ofList {l : List (κ × ν)} {y : κ × ν} (h : y ∈ (ofList l).entries) : y ∈ l := by
  induction l using List.reverseRecOn with
  | nil => cases h
  | append_singleton l x ih =>
    have hstep : ofList (l ++ [x]) = (ofList l).emplace x := by simp [ofList]
    rw [hstep] at h
    rcases mem_of_mem_emplace h with h | rfl
    · exact List.mem_append_left _ (ih h)
    · simp

theorem mem_entries_iff {v : ν} : (k, v) ∈ m.entries ↔ m.find? k = some v := by
  refine ⟨fun h => ?_, mem_of_find?⟩
  obtain ⟨l, hnd⟩ := m
  rw [find?]
  dsimp only at h hnd ⊢
  induction l with
  | nil => cases h
  | cons x l ih =>
    rw [List.map_cons, List.nodup_cons] at hnd
    by_cases hx : x.1 = k
    · rw [List.find?_cons_of_pos (by simpa using hx)]
      rcases List.mem_cons.mp h with h | h
      · rw [← h]
        rfl
      · have hk : k ∈ l.map Prod.fst := List.mem_map.mpr ⟨(k, v), h, rfl⟩
        exact absurd (hx ▸ hk) hnd.1
    · rw [List.find?_cons_of_neg (by simpa using hx)]
      refine ih hnd.2 ?_
      rcases List.mem_cons.mp h with h | h
      · exact absurd (by rw [← h]) hx
      · exact h

theorem mem_keys_iff : k ∈ m.keys ↔ ∃ v, m.find? k = some v := by
  rw [keys, List.mem_map]
  constructor
  · rintro ⟨⟨k, v⟩, h, rfl⟩
    exact ⟨v, mem_entries_iff.mp h⟩
  · rintro ⟨v, h⟩
    exact ⟨(k, v), mem_entries_iff.mpr h, rfl⟩

theorem find?_eq_none_iff : m.find? k = none ↔ k ∉ m.keys := by
  rw [mem_keys_iff, not_exists, Option.eq_none_iff_forall_ne_some]

@[simp]
theorem find?_empty (k : κ) : (∅ : UnorderedMap κ ν).find? k = none := rfl

theorem find?_upsert (m : UnorderedMap κ ν) (k k' : κ) (f : Option ν → ν) :
    (m.upsert k f).find? k' = if k' = k then some (f (m.find? k)) else m.find? k' := by
  apply Option.ext
  intro v
  rw [← mem_entries_iff, upsert]
  split_ifs with hk hk' hk'
  · obtain ⟨v₀, hv₀⟩ := mem_keys_iff.mp hk
    simp only [List.mem_map, Prod.mk.injEq, Prod.exists, mem_entries_iff]
    constructor
    · rintro ⟨k₁, v₁, hfind, rfl, rfl⟩
      rw [if_pos hk', ← hk', hfind]
    · rintro h
      refine ⟨k', v₀, hk' ▸ hv₀, rfl, ?_⟩
      rw [if_pos hk']
      rw [hv₀] at h
      exact Option.some_inj.mp h
  · simp only [List.mem_map, Prod.mk.injEq, Prod.exists, mem_entries_iff]
    constructor
    · rintro ⟨k₁, v₁, hfind, rfl, rfl⟩
      rw [if_neg hk']
      exact hfind
    · intro h
      exact ⟨k', v, h, rfl, if_neg hk'⟩
  · have hnone := find?_eq_none_iff.mpr hk
    rw [List.mem_append, List.mem_singleton, mem_entries_iff, hk', hnone]
    simp [eq_comm]
  · rw [List.mem_append, List.mem_singleton, mem_entries_iff]
    simp [hk']

theorem find?_filterMapValues (m : UnorderedMap κ ν) (f : ν → Option ν) (k : κ) :
    (m.filterMapValues f).find? k = (m.find? k).bind f := by
  apply Option.ext
  intro v
  rw [← mem_entries_iff, filterMapValues]
  simp only [List.mem_filterMap, Option.map_eq_some_iff, Prod.mk.injEq, Prod.exists, mem_entries_iff,
    Option.bind_eq_some_iff]
  constructor
  · rintro ⟨k₁, v₁, hfind, v₂, hf, rfl, rfl⟩
    exact ⟨v₁, hfind, hf⟩
  · rintro ⟨v₁, hfind, hf⟩
    exact ⟨k, v₁, hfind, v, hf, rfl, rfl⟩

theorem find?_erase (m : UnorderedMap κ ν) (k k' : κ) :
    (m.erase k).find? k' = if k' = k then none else m.find? k' := by
  apply Option.ext
  intro v
  rw [← mem_entries_iff, erase, List.mem_filter, mem_entries_iff, decide_eq_true_eq]
  split_ifs with hk
  · exact iff_of_false (fun h => h.2 hk) id
  · exact and_iff_left hk

theorem mem_keys_emplace {x : κ × ν} : k ∈ (m.emplace x).keys ↔ k = x.1 ∨ k ∈ m.keys := by
  rw [emplace]
  split_ifs with hx
  · refine ⟨.inr, ?_⟩
    rintro (rfl | hk)
    · exact hx
    · exact hk
  · rw [keys, List.map_append, List.mem_append, List.map_singleton, List.mem_singleton, or_comm]
    rfl

theorem mem_keys_foldl_emplace {l : List (κ × ν)} :
    k ∈ (l.foldl emplace m).keys ↔ k ∈ l.map Prod.fst ∨ k ∈ m.keys := by
  induction l generalizing m with
  | nil => simp
  | cons x rest ih =>
    rw [List.foldl_cons, ih, mem_keys_emplace, List.map_cons, List.mem_cons, or_left_comm, or_assoc]

theorem mem_keys_foldl_erase {l : List κ} :
    k ∈ (l.foldl erase m).keys ↔ k ∉ l ∧ k ∈ m.keys := by
  induction l generalizing m with
  | nil => simp
  | cons x rest ih =>
    have hstep : k ∈ (m.erase x).keys ↔ k ≠ x ∧ k ∈ m.keys := by
      rw [mem_keys_iff, mem_keys_iff, find?_erase]
      split_ifs with hk <;> simp [hk]
    rw [List.foldl_cons, ih, hstep, List.mem_cons, not_or, and_left_comm, and_assoc]

end UnorderedMap
