import Mathlib.Order.Lattice
import Mathlib.Data.List.Induction
import Mathlib.Data.List.Pairwise

/--
A map kept in the order of its keys. Two keys are the same for the map when `key` agrees on them;
an entry keeps the key it was first given.
-/
@[ext]
structure OrderedMap {κ ι : Type} [LinearOrder ι] (key : κ → ι) (ν : Type) where
  entries : List (κ × ν)
  sorted : entries.Pairwise fun x y => key x.1 < key y.1

namespace OrderedMap

variable {κ ι ν : Type} [LinearOrder ι] {key : κ → ι}

instance : EmptyCollection (OrderedMap key ν) := ⟨⟨[], .nil⟩⟩

def find? (m : OrderedMap key ν) (k : κ) : Option ν :=
  (m.entries.find? fun x => decide (key x.1 = key k)).map Prod.snd

def filter (m : OrderedMap key ν) (p : κ × ν → Bool) : OrderedMap key ν :=
  ⟨m.entries.filter p, m.sorted.filter p⟩

def erase (m : OrderedMap key ν) (k : κ) : OrderedMap key ν := m.filter fun x => decide (key x.1 ≠ key k)

def assignEntries (key : κ → ι) (k : κ) (v : ν) : List (κ × ν) → List (κ × ν)
  | [] => [(k, v)]
  | x :: rest =>
    if key k < key x.1 then (k, v) :: x :: rest
    else if key x.1 < key k then x :: assignEntries key k v rest
    else (x.1, v) :: rest

theorem eq_of_key_eq (m : OrderedMap key ν) {x y : κ × ν} (hx : x ∈ m.entries) (hy : y ∈ m.entries)
    (h : key x.1 = key y.1) : x = y := by
  by_contra hne
  have hsymm : Std.Symm fun x y : κ × ν => key x.1 ≠ key y.1 := ⟨fun _ _ => Ne.symm⟩
  have hpair : m.entries.Pairwise fun x y => key x.1 ≠ key y.1 := m.sorted.imp ne_of_lt
  exact hpair.forall hx hy hne h

theorem find?_eq_some_iff (m : OrderedMap key ν) (k : κ) (v : ν) :
    m.find? k = some v ↔ ∃ k', (k', v) ∈ m.entries ∧ key k' = key k := by
  constructor
  · intro h
    obtain ⟨⟨k', v'⟩, hfind, rfl⟩ := Option.map_eq_some_iff.mp h
    exact ⟨k', List.mem_of_find?_eq_some hfind, by simpa using List.find?_some hfind⟩
  · rintro ⟨k', hmem, hk⟩
    cases hfind : m.entries.find? fun x => decide (key x.1 = key k) with
    | none => simpa [hk] using List.find?_eq_none.mp hfind _ hmem
    | some x =>
      have hx : key x.1 = key k := by simpa using List.find?_some hfind
      have he : x = (k', v) := m.eq_of_key_eq (List.mem_of_find?_eq_some hfind) hmem (hx.trans hk.symm)
      rw [find?, hfind, he]
      rfl

theorem find?_eq_none_iff (m : OrderedMap key ν) (k : κ) :
    m.find? k = none ↔ ∀ x ∈ m.entries, key x.1 ≠ key k := by
  simp [find?, List.find?_eq_none]

theorem mem_assignEntries {k : κ} {v : ν} {x : κ × ν} {l : List (κ × ν)}
    (h : x ∈ assignEntries key k v l) : x = (k, v) ∨ (∃ y ∈ l, x.1 = y.1) := by
  induction l with
  | nil => exact .inl (List.mem_singleton.mp h)
  | cons y rest ih =>
    rw [assignEntries] at h
    split_ifs at h with hlt hgt
    · rcases List.mem_cons.mp h with rfl | hx
      · exact .inl rfl
      · exact .inr ⟨x, hx, rfl⟩
    · rcases List.mem_cons.mp h with rfl | hx
      · exact .inr ⟨x, by simp, rfl⟩
      · rcases ih hx with rfl | ⟨z, hz, he⟩
        · exact .inl rfl
        · exact .inr ⟨z, by simp [hz], he⟩
    · rcases List.mem_cons.mp h with rfl | hx
      · exact .inr ⟨y, by simp, rfl⟩
      · exact .inr ⟨x, by simp [hx], rfl⟩

theorem sorted_assignEntries (k : κ) (v : ν) {l : List (κ × ν)}
    (h : l.Pairwise fun x y => key x.1 < key y.1) :
    (assignEntries key k v l).Pairwise fun x y => key x.1 < key y.1 := by
  induction l with
  | nil => exact List.pairwise_singleton _ _
  | cons x rest ih =>
    obtain ⟨hx, hrest⟩ := List.pairwise_cons.mp h
    rw [assignEntries]
    split_ifs with hlt hgt
    · refine List.pairwise_cons.mpr ⟨fun y hy => ?_, h⟩
      rcases List.mem_cons.mp hy with rfl | hy
      · exact hlt
      · exact hlt.trans (hx y hy)
    · refine List.pairwise_cons.mpr ⟨fun y hy => ?_, ih hrest⟩
      rcases mem_assignEntries hy with rfl | ⟨z, hz, he⟩
      · exact hgt
      · rw [he]; exact hx z hz
    · exact List.pairwise_cons.mpr ⟨hx, hrest⟩

def assign (m : OrderedMap key ν) (k : κ) (v : ν) : OrderedMap key ν :=
  ⟨assignEntries key k v m.entries, sorted_assignEntries k v m.sorted⟩

@[simp] theorem find?_empty (k : κ) : (∅ : OrderedMap key ν).find? k = none := rfl

theorem find?_assign (m : OrderedMap key ν) (k : κ) (v : ν) (k' : κ) :
    (m.assign k v).find? k' = if key k' = key k then some v else m.find? k' := by
  obtain ⟨l, hl⟩ := m
  simp only [find?, assign]
  clear hl
  induction l with
  | nil => by_cases hk : key k' = key k <;> simp [assignEntries, hk, eq_comm]
  | cons x rest ih =>
    rw [assignEntries]
    by_cases hk : key k' = key k
    · simp only [hk, if_true] at ih ⊢
      rcases lt_trichotomy (key k) (key x.1) with hlt | heq | hgt
      · rw [if_pos hlt, List.find?_cons_of_pos (by simp)]
        rfl
      · rw [if_neg heq.not_lt, if_neg heq.not_gt, List.find?_cons_of_pos (by simp [heq])]
        rfl
      · rw [if_neg hgt.not_gt, if_pos hgt, List.find?_cons_of_neg (by simp [hgt.ne]), ih]
    · simp only [hk, if_false] at ih ⊢
      rcases lt_trichotomy (key k) (key x.1) with hlt | heq | hgt
      · rw [if_pos hlt, List.find?_cons_of_neg (by simpa using Ne.symm hk)]
      · have hx : ¬ key x.1 = key k' := heq ▸ Ne.symm hk
        rw [if_neg heq.not_lt, if_neg heq.not_gt, List.find?_cons_of_neg (by simpa using hx),
          List.find?_cons_of_neg (by simpa using hx)]
      · rw [if_neg hgt.not_gt, if_pos hgt]
        by_cases hx : key x.1 = key k'
        · rw [List.find?_cons_of_pos (by simpa using hx), List.find?_cons_of_pos (by simpa using hx)]
        · rw [List.find?_cons_of_neg (by simpa using hx), List.find?_cons_of_neg (by simpa using hx), ih]

def emplace (m : OrderedMap key ν) (x : κ × ν) : OrderedMap key ν :=
  if (m.find? x.1).isSome then m else m.assign x.1 x.2

def ofList (l : List (κ × ν)) : OrderedMap key ν := l.foldl emplace ∅

theorem assignEntries_append {k : κ} (v : ν) {l : List (κ × ν)} (h : ∀ y ∈ l, key y.1 < key k) :
    assignEntries key k v l = l ++ [(k, v)] := by
  induction l with
  | nil => rfl
  | cons y l ih =>
    have hy := h y (by simp)
    rw [assignEntries, if_neg hy.not_gt, if_pos hy, ih fun z hz => h z (by simp [hz]), List.cons_append]

end OrderedMap
