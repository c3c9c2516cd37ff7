import Mathlib.Data.List.Sort

/-- Entries with one entry per key, in the order of their times. Equal times stand in the order of their insertion. -/
structure TimedIndex {α κ τ : Type} [LinearOrder τ] (key : α → κ) (time : α → τ) where
  entries : List α
  nodup : (entries.map key).Nodup
  sorted : entries.Pairwise fun x y => time x ≤ time y

namespace TimedIndex

variable {α κ τ : Type} [LinearOrder τ] {key : α → κ} {time : α → τ}

instance instEmptyCollection : EmptyCollection (TimedIndex key time) := ⟨⟨[], .nil, .nil⟩⟩

@[simp]
theorem entries_empty : (∅ : TimedIndex key time).entries = [] := rfl

instance instMembership : Membership α (TimedIndex key time) := ⟨fun m x => x ∈ m.entries⟩

variable {m : TimedIndex key time} {x y : α}

theorem mem_def : x ∈ m ↔ x ∈ m.entries := Iff.rfl

@[simp]
theorem notMem_empty (x : α) : x ∉ (∅ : TimedIndex key time) := List.not_mem_nil

theorem eq_of_key (hx : x ∈ m) (hy : y ∈ m) (h : key x = key y) : x = y :=
  List.inj_on_of_nodup_map m.nodup hx hy h

def size (m : TimedIndex key time) : ℕ := m.entries.length

def ofSublist (m : TimedIndex key time) {l : List α} (h : l.Sublist m.entries) : TimedIndex key time :=
  ⟨l, m.nodup.sublist (h.map key), m.sorted.sublist h⟩

def eraseIf (m : TimedIndex key time) (p : α → Bool) : TimedIndex key time :=
  m.ofSublist (@List.filter_sublist α (fun x => !p x) m.entries)

@[simp]
theorem mem_eraseIf {p : α → Bool} : x ∈ m.eraseIf p ↔ x ∈ m ∧ p x = false := by
  change x ∈ m.entries.filter _ ↔ _
  rw [List.mem_filter, Bool.not_eq_true', mem_def]

theorem size_eraseIf_le (m : TimedIndex key time) (p : α → Bool) : (m.eraseIf p).size ≤ m.size := List.length_filter_le _ _

def trimLoop (limit : ℕ) : List α → List α
  | [] => []
  | x :: l => if limit < (x :: l).length then trimLoop limit l else x :: l

theorem trimLoop_sublist (limit : ℕ) (l : List α) : (trimLoop limit l).Sublist l := by
  induction l with
  | nil => exact .slnil
  | cons x l ih =>
    rw [trimLoop]
    split_ifs
    · exact ih.cons x
    · exact .refl _

theorem length_trimLoop_le (limit : ℕ) (l : List α) : (trimLoop limit l).length ≤ limit := by
  induction l with
  | nil => exact Nat.zero_le _
  | cons x l ih =>
    rw [trimLoop]
    split_ifs with h
    · exact ih
    · exact Nat.le_of_not_lt h

def trim (m : TimedIndex key time) (limit : ℕ) : TimedIndex key time := m.ofSublist (trimLoop_sublist limit m.entries)

theorem mem_of_mem_trim {limit : ℕ} (h : x ∈ m.trim limit) : x ∈ m :=
  (trimLoop_sublist limit m.entries).subset h

theorem size_trim_le (m : TimedIndex key time) (limit : ℕ) : (m.trim limit).size ≤ limit := length_trimLoop_le limit m.entries

theorem pairwise_insert {l : List α} (x : α) (h : l.Pairwise fun y z => time y ≤ time z) :
    (l.orderedInsert (fun y z => time y < time z) x).Pairwise fun y z => time y ≤ time z := by
  induction l with
  | nil => exact List.pairwise_singleton _ _
  | cons y l ih =>
    obtain ⟨hy, hl⟩ := List.pairwise_cons.mp h
    rw [List.orderedInsert_cons]
    split_ifs with hlt
    · refine List.pairwise_cons.mpr ⟨fun z hz => ?_, h⟩
      rcases List.mem_cons.mp hz with rfl | hz
      · exact hlt.le
      · exact hlt.le.trans (hy z hz)
    · refine List.pairwise_cons.mpr ⟨fun z hz => ?_, ih hl⟩
      rcases (List.mem_orderedInsert _).mp hz with rfl | hz
      · exact not_lt.mp hlt
      · exact hy z hz

variable [DecidableEq κ]

def find (m : TimedIndex key time) (k : κ) : Option α := m.entries.find? fun x => decide (key x = k)

theorem find_eq_some {k : κ} (h : m.find k = some x) : x ∈ m ∧ key x = k := by
  have hkey := List.find?_some h
  exact ⟨List.mem_of_find?_eq_some h, of_decide_eq_true hkey⟩

theorem find_eq_none {k : κ} : m.find k = none ↔ ∀ x ∈ m, key x ≠ k := by
  rw [find, List.find?_eq_none]
  simp only [decide_eq_true_eq]
  rfl

def erase (m : TimedIndex key time) (k : κ) : TimedIndex key time := m.eraseIf fun x => decide (key x = k)

@[simp]
theorem mem_erase {k : κ} : x ∈ m.erase k ↔ x ∈ m ∧ key x ≠ k := by
  rw [erase, mem_eraseIf, decide_eq_false_iff_not]

def insert (m : TimedIndex key time) (x : α) : TimedIndex key time :=
  if h : m.find (key x) = none then
    { entries := m.entries.orderedInsert (fun y z => time y < time z) x
      nodup := by
        rw [((m.entries.perm_orderedInsert _ x).map key).nodup_iff, List.map_cons, List.nodup_cons]
        refine ⟨fun hmem => ?_, m.nodup⟩
        obtain ⟨y, hy, hkey⟩ := List.mem_map.mp hmem
        exact find_eq_none.mp h y hy hkey
      sorted := pairwise_insert x m.sorted }
  else m

theorem mem_insert (h : m.find (key x) = none) : y ∈ m.insert x ↔ y = x ∨ y ∈ m := by
  rw [insert, dif_pos h]
  exact List.mem_orderedInsert _

theorem size_insert_le (m : TimedIndex key time) (x : α) : (m.insert x).size ≤ m.size + 1 := by
  rw [insert]
  split_ifs
  · exact (List.orderedInsert_length _ _ _).le
  · exact Nat.le_succ _

def overwrite (key : α → κ) (x : α) (l : List α) : List α := l.map fun y => if key y = key x then x else y

theorem map_key_overwrite (x : α) (l : List α) : (overwrite key x l).map key = l.map key := by
  rw [overwrite, List.map_map]
  refine List.map_congr_left fun y _ => ?_
  rw [Function.comp_apply]
  split_ifs with h
  · exact h.symm
  · rfl

theorem mem_overwrite {l : List α} (h : ∃ z ∈ l, key z = key x) :
    y ∈ overwrite key x l ↔ y = x ∨ y ∈ l ∧ key y ≠ key x := by
  rw [overwrite, List.mem_map]
  constructor
  · rintro ⟨z, hz, rfl⟩
    split_ifs with hkey
    · exact .inl rfl
    · exact .inr ⟨hz, hkey⟩
  · rintro (rfl | ⟨hy, hkey⟩)
    · obtain ⟨z, hz, hkey⟩ := h
      exact ⟨z, hz, if_pos hkey⟩
    · exact ⟨y, hy, if_neg hkey⟩

def replace (m : TimedIndex key time) (x : α) : TimedIndex key time :=
  if h : (overwrite key x m.entries).Pairwise fun y z => time y ≤ time z then
    ⟨overwrite key x m.entries, by rw [map_key_overwrite]; exact m.nodup, h⟩
  else (m.erase (key x)).insert x

theorem find_erase_self (m : TimedIndex key time) (k : κ) : (m.erase k).find k = none :=
  find_eq_none.mpr fun _ hx => (mem_erase.mp hx).2

theorem mem_replace (h : ∃ z ∈ m, key z = key x) :
    y ∈ m.replace x ↔ y = x ∨ y ∈ m ∧ key y ≠ key x := by
  rw [replace]
  split_ifs
  · exact mem_overwrite h
  · rw [mem_insert (find_erase_self m (key x)), mem_erase]

theorem size_replace_le (h : ∃ z ∈ m, key z = key x) : (m.replace x).size ≤ m.size := by
  rw [replace]
  split_ifs
  · exact (List.length_map _).le
  · refine (size_insert_le _ _).trans ?_
    obtain ⟨z, hz, hkey⟩ := h
    refine List.length_filter_lt_length_iff_exists.mpr ⟨z, hz, ?_⟩
    change ¬(!decide (key z = key x)) = true
    rw [decide_eq_true hkey]
    decide

end TimedIndex
