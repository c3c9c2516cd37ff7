import Mathlib.Data.List.Infix
import Mathlib.Data.Option.Basic

namespace PartialLookup

variable {ι α : Type}

def lookupWhile (f : ι → Option α) : List ι → List α
  | [] => []
  | i :: rest =>
    match f i with
    | none => []
    | some a => a :: lookupWhile f rest

def Found (f : ι → Option α) (idx : List ι) (vals : List α) : Prop := vals.map some <+: idx.map f

variable {f g : ι → Option α} {idx : List ι} {vals : List α}

theorem found_nil : Found f idx [] := List.nil_prefix

variable {a : α} {i : ι}

theorem found_cons_iff : Found f (i :: idx) (a :: vals) ↔ f i = some a ∧ Found f idx vals := by
  rw [Found, List.map_cons, List.map_cons, List.cons_prefix_cons]
  exact and_congr_left' eq_comm

theorem not_found_of_nil : ¬Found f [] (a :: vals) := by
  intro h
  have hlen := List.IsPrefix.length_le h
  simp at hlen

theorem found_lookupWhile (f : ι → Option α) (idx : List ι) : Found f idx (lookupWhile f idx) := by
  induction idx with
  | nil => exact found_nil
  | cons i idx ih =>
    cases hi : f i with
    | none =>
      rw [lookupWhile, hi]
      exact found_nil
    | some a =>
      rw [lookupWhile, hi]
      exact found_cons_iff.mpr ⟨hi, ih⟩

theorem Found.mono (h : Found f idx vals) (hfg : ∀ i a, f i = some a → g i = some a) : Found g idx vals := by
  induction idx generalizing vals with
  | nil =>
    cases vals with
    | nil => exact found_nil
    | cons a vals => exact absurd h not_found_of_nil
  | cons i idx ih =>
    cases vals with
    | nil => exact found_nil
    | cons a vals =>
      obtain ⟨hi, h⟩ := found_cons_iff.mp h
      exact found_cons_iff.mpr ⟨hfg i a hi, ih h⟩

theorem Found.append {more : List α} (h : Found f idx vals) (hmore : Found f (idx.drop vals.length) more) :
    Found f idx (vals ++ more) := by
  induction vals generalizing idx with
  | nil => exact hmore
  | cons a vals ih =>
    cases idx with
    | nil => exact absurd h not_found_of_nil
    | cons i idx =>
      obtain ⟨hi, h⟩ := found_cons_iff.mp h
      exact found_cons_iff.mpr ⟨hi, ih h hmore⟩

theorem Found.getElem? {n : ℕ} (h : Found f idx vals) (ha : vals[n]? = some a) :
    ∃ i, idx[n]? = some i ∧ f i = some a := by
  have hmap : (vals.map some)[n]? = some (some a) := by rw [List.getElem?_map, ha, Option.map_some]
  have hlt := (List.getElem?_eq_some_iff.mp hmap).1
  obtain ⟨rest, hrest⟩ := h
  have hidx : (idx.map f)[n]? = some (some a) := by rw [← hrest, List.getElem?_append_left hlt, hmap]
  rw [List.getElem?_map] at hidx
  exact Option.map_eq_some_iff.mp hidx

theorem Found.tail (h : Found f (i :: idx) vals) : Found f idx vals.tail := by
  cases vals with
  | nil => exact found_nil
  | cons a vals => exact (found_cons_iff.mp h).2

theorem Found.head?_or (h : Found f (i :: idx) vals) : vals.head?.or (f i) = f i := by
  cases vals with
  | nil => rfl
  | cons a vals => exact (found_cons_iff.mp h).1.symm

theorem lookupWhile_of_map_eq (h : idx.map f = vals.map some) : lookupWhile f idx = vals := by
  induction idx generalizing vals with
  | nil =>
    cases vals with
    | nil => rfl
    | cons a vals => cases h
  | cons i idx ih =>
    cases vals with
    | nil => cases h
    | cons a vals =>
      rw [List.map_cons, List.map_cons, List.cons.injEq] at h
      rw [lookupWhile, h.1, ih h.2]

theorem exists_map_eq (h : ∀ i ∈ idx, ∃ a, f i = some a) : ∃ vals : List α, idx.map f = vals.map some := by
  induction idx with
  | nil => exact ⟨[], rfl⟩
  | cons i idx ih =>
    obtain ⟨a, ha⟩ := h i List.mem_cons_self
    obtain ⟨vals, hvals⟩ := ih fun j hj => h j (List.mem_cons_of_mem i hj)
    exact ⟨a :: vals, by rw [List.map_cons, List.map_cons, ha, hvals]⟩

theorem length_lookupWhile_eq_iff : (lookupWhile f idx).length = idx.length ↔ ∀ i ∈ idx, f i ≠ none := by
  induction idx with
  | nil => simp [lookupWhile]
  | cons i idx ih =>
    rw [lookupWhile, List.forall_mem_cons, ← ih]
    cases hi : f i with
    | none => simp
    | some a => simp

theorem Found.forall_iff (h : Found f idx vals) :
    (∀ i ∈ idx, f i ≠ none) ↔ ∀ i ∈ idx.drop vals.length, f i ≠ none := by
  induction vals generalizing idx with
  | nil => rfl
  | cons a vals ih =>
    cases idx with
    | nil => exact absurd h not_found_of_nil
    | cons i idx =>
      obtain ⟨hi, h⟩ := found_cons_iff.mp h
      rw [List.forall_mem_cons, ih h, List.length_cons, List.drop_succ_cons, and_iff_right]
      rw [hi]
      exact Option.some_ne_none a

theorem map_eq_of_map_eq {β : Type} {e : α → β} {vals' : List α} (hfg : ∀ i, (f i).map e = (g i).map e)
    (h : idx.map f = vals.map some) (h' : idx.map g = vals'.map some) : vals.map e = vals'.map e := by
  apply List.map_injective_iff.mpr (Option.some_injective β)
  have hsome : ∀ l : List α, (l.map e).map some = (l.map some).map (Option.map e) := by
    intro l
    rw [List.map_map, List.map_map]
    rfl
  rw [hsome, hsome, ← h, ← h', List.map_map, List.map_map]
  exact List.map_congr_left fun i _ => hfg i

theorem mem_of_map_eq (h : idx.map f = vals.map some) (ha : a ∈ vals) : ∃ i ∈ idx, f i = some a := by
  have hmem : some a ∈ vals.map some := List.mem_map_of_mem ha
  rw [← h] at hmem
  exact List.mem_map.mp hmem

theorem exists_of_map_eq (h : idx.map f = vals.map some) (hi : i ∈ idx) : ∃ a ∈ vals, f i = some a := by
  have hmem := List.mem_map_of_mem hi (f := f)
  rw [h] at hmem
  obtain ⟨a, ha, heq⟩ := List.mem_map.mp hmem
  exact ⟨a, ha, heq.symm⟩

end PartialLookup
