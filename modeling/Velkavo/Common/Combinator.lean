import Velkavo.Effects.Checks
import Mathlib.Algebra.Order.Group.Nat
import Mathlib.Data.Finset.Powerset

namespace Velkavo.Common

inductive CombinatorError
  | runtimeError (what : String)
  | outOfRange
  deriving DecidableEq

structure Combinator (α : Type) where
  origin : List α
  combinations : List (List α)
  current : List ℕ

namespace Combinator

variable {α : Type}

def new (v : List α) : Combinator α := ⟨v, [], []⟩

def element (c : Combinator α) (ind : ℕ) : Except CombinatorError α :=
  match c.origin[ind]? with
  | none => .error .outOfRange
  | some x => .ok x

def addCombination (c : Combinator α) : Except CombinatorError (Combinator α) := do
  let comb ← c.current.mapM c.element
  pure { c with combinations := c.combinations ++ [comb] }

def doCombine : ℕ → ℕ → Combinator α → Except CombinatorError (Combinator α)
  | 0, _, c => pure c
  | k + 1, first, c => do
    let c ← (List.range' first (c.origin.length - (k + 1) + 1 - first)).foldlM (fun c i =>
        let c := { c with current := c.current.dropLast ++ [i] }
        if k + 1 > 1 then doCombine k (i + 1) c else c.addCombination)
      { c with current := c.current ++ [0] }
    pure { c with current := c.current.dropLast }

def combine (c : Combinator α) (k : ℕ) : Except CombinatorError (Combinator α) :=
  if k > c.origin.length then .error (.runtimeError "k must be smaller than elements number")
  else if k = 0 then .error (.runtimeError "k must be greater than zero")
  else doCombine k 0 { c with combinations := [] }

end Combinator

def countLoop : ℕ → UInt64 → UInt32 → UInt64 → UInt64
  | 0, _, _, c => c
  | turns + 1, i, n, c => countLoop turns (i + 1) (n - 1) (c * n.toUInt64 / i)

def combinationsCount (k n : UInt32) : Except CombinatorError UInt64 :=
  if k > n then .error (.runtimeError "k must not be greater than n") else .ok (countLoop k.toNat 1 n 1)

def positions (n : ℕ) : ℕ → ℕ → List (List ℕ)
  | 0, _ => [[]]
  | k + 1, first => (List.range' first (n - (k + 1) + 1 - first)).flatMap fun i => (positions n k (i + 1)).map (i :: ·)

section

variable {n k first : ℕ} {p : List ℕ}

structure Ascending (n k first : ℕ) (p : List ℕ) : Prop where
  length : p.length = k
  sorted : p.Pairwise (· < ·)
  range : ∀ i ∈ p, first ≤ i ∧ i < n

theorem Ascending.add_le (h : Ascending n k first p) (hp : p ≠ []) : first + k ≤ n := by
  induction p generalizing k first with
  | nil => exact absurd rfl hp
  | cons i q ih =>
    obtain ⟨hi, hq⟩ := List.forall_mem_cons.mp h.range
    obtain ⟨hlt, hsorted⟩ := List.pairwise_cons.mp h.sorted
    have hk := h.length
    rw [List.length_cons] at hk
    by_cases hnil : q = []
    · rw [hnil, List.length_nil] at hk
      omega
    · have := @ih (k - 1) (i + 1) ⟨by omega, hsorted, fun j hj => ⟨hlt j hj, (hq j hj).2⟩⟩ hnil
      omega

theorem ascending_cons {i : ℕ} {q : List ℕ} :
    Ascending n (k + 1) first (i :: q) ↔ (first ≤ i ∧ i < n) ∧ Ascending n k (i + 1) q := by
  constructor
  · intro h
    obtain ⟨hi, hq⟩ := List.forall_mem_cons.mp h.range
    obtain ⟨hlt, hsorted⟩ := List.pairwise_cons.mp h.sorted
    exact ⟨hi, Nat.succ.inj h.length, hsorted, fun j hj => ⟨hlt j hj, (hq j hj).2⟩⟩
  · rintro ⟨hi, hq⟩
    refine ⟨congrArg Nat.succ hq.length, List.pairwise_cons.mpr ⟨fun j hj => (hq.range j hj).1, hq.sorted⟩, ?_⟩
    refine List.forall_mem_cons.mpr ⟨hi, fun j hj => ?_⟩
    have := hq.range j hj
    omega

theorem mem_positions (hk : k ≤ n) : p ∈ positions n k first ↔ Ascending n k first p := by
  induction k generalizing first p with
  | zero =>
    rw [positions, List.mem_singleton]
    constructor
    · rintro rfl
      exact ⟨rfl, .nil, List.forall_mem_nil _⟩
    · exact fun h => List.length_eq_zero_iff.mp h.length
  | succ k ih =>
    rw [positions, List.mem_flatMap]
    constructor
    · rintro ⟨i, hi, hp⟩
      obtain ⟨q, hq, rfl⟩ := List.mem_map.mp hp
      rw [List.mem_range'_1] at hi
      exact ascending_cons.mpr ⟨by omega, (ih (by omega)).mp hq⟩
    · intro h
      cases p with
      | nil => cases h.length
      | cons i q =>
        obtain ⟨hi, hq⟩ := ascending_cons.mp h
        refine ⟨i, ?_, List.mem_map_of_mem ((ih (by omega)).mpr hq)⟩
        rw [List.mem_range'_1]
        by_cases hnil : q = []
        · have hlen := hq.length
          rw [hnil, List.length_nil] at hlen
          omega
        · have := hq.add_le hnil
          omega

theorem positions_sorted : (positions n k first).Pairwise (List.Lex (· < ·)) := by
  induction k generalizing first with
  | zero => exact List.pairwise_singleton _ _
  | succ k ih =>
    rw [positions, List.pairwise_flatMap]
    constructor
    · intro i _
      exact List.Pairwise.map _ (fun _ _ h => .cons h) ih
    · refine (List.pairwise_lt_range' (s := first) 1).imp fun hlt x hx y hy => ?_
      obtain ⟨p, -, rfl⟩ := List.mem_map.mp hx
      obtain ⟨q, -, rfl⟩ := List.mem_map.mp hy
      exact .rel hlt

end

def select {α : Type} (v : List α) (p : List ℕ) : List α := p.filterMap (v[·]?)

theorem select_cons {α : Type} {v : List α} {p : List ℕ} {i : ℕ} (h : i < v.length) :
    select v (i :: p) = v[i] :: select v p :=
  List.filterMap_cons_some (List.getElem?_eq_getElem h)

namespace Combinator

variable {α : Type} {c : Combinator α} {k first : ℕ}

theorem mapM_element {p : List ℕ} (h : ∀ i ∈ p, i < c.origin.length) : p.mapM c.element = .ok (select c.origin p) := by
  induction p with
  | nil => rfl
  | cons i p ih =>
    obtain ⟨hi, hp⟩ := List.forall_mem_cons.mp h
    have hget : c.origin[i]? = some c.origin[i] := List.getElem?_eq_getElem hi
    rw [List.mapM_cons, ih hp, element, hget, select_cons hi]
    rfl

theorem foldlM_turns {turn : Combinator α → ℕ → Except CombinatorError (Combinator α)} {cur : List ℕ}
    {added : ℕ → List (List α)} {l : List ℕ}
    (hturn : ∀ i ∈ l, ∀ j combinations, turn ⟨c.origin, combinations, cur ++ [j]⟩ i =
      .ok ⟨c.origin, combinations ++ added i, cur ++ [i]⟩) (j : ℕ) (combinations : List (List α)) :
    ∃ j', l.foldlM turn ⟨c.origin, combinations, cur ++ [j]⟩ = .ok ⟨c.origin, combinations ++ l.flatMap added, cur ++ [j']⟩ := by
  induction l generalizing j combinations with
  | nil => exact ⟨j, by rw [List.flatMap_nil, List.append_nil]; rfl⟩
  | cons i l ih =>
    obtain ⟨hi, hl⟩ := List.forall_mem_cons.mp hturn
    obtain ⟨j', hj'⟩ := ih hl i (combinations ++ added i)
    refine ⟨j', ?_⟩
    rw [List.foldlM_cons, hi, List.flatMap_cons, ← List.append_assoc]
    exact hj'

theorem doCombine_of_turns (hturn : ∀ i ∈ List.range' first (c.origin.length - (k + 1) + 1 - first), ∀ combinations,
      (if k + 1 > 1 then doCombine k (i + 1) ⟨c.origin, combinations, c.current ++ [i]⟩
        else addCombination ⟨c.origin, combinations, c.current ++ [i]⟩) =
      .ok ⟨c.origin, combinations ++ (positions c.origin.length k (i + 1)).map fun p => select c.origin (c.current ++ i :: p),
        c.current ++ [i]⟩) :
    doCombine (k + 1) first c = .ok { c with
      combinations := c.combinations ++ (positions c.origin.length (k + 1) first).map fun p => select c.origin (c.current ++ p) } := by
  obtain ⟨j, hj⟩ := @foldlM_turns α c (fun c i =>
      if k + 1 > 1 then doCombine k (i + 1) { c with current := c.current.dropLast ++ [i] }
      else addCombination { c with current := c.current.dropLast ++ [i] }) c.current _ _
    (fun i hi j combinations => by simp only [List.dropLast_concat]; exact hturn i hi combinations) 0 c.combinations
  rw [doCombine]
  refine (congrArg (· >>= _) hj).trans ?_
  change Except.ok _ = Except.ok _
  simp only [positions, List.map_flatMap, List.map_map, Function.comp_def, List.dropLast_concat]

theorem doCombine_eq (hk : k + 1 ≤ c.origin.length) (hcurrent : ∀ i ∈ c.current, i < c.origin.length) :
    doCombine (k + 1) first c = .ok { c with
      combinations := c.combinations ++ (positions c.origin.length (k + 1) first).map fun p => select c.origin (c.current ++ p) } := by
  induction k generalizing c first with
  | zero =>
    refine doCombine_of_turns fun i hi combinations => ?_
    rw [List.mem_range'_1] at hi
    have hall : ∀ m ∈ c.current ++ [i], m < c.origin.length :=
      List.forall_mem_append.mpr ⟨hcurrent, List.forall_mem_singleton.mpr (by omega)⟩
    rw [if_neg (Nat.lt_irrefl _), addCombination, @mapM_element α ⟨c.origin, combinations, _⟩ _ hall]
    rfl
  | succ k ih =>
    refine doCombine_of_turns fun i hi combinations => ?_
    rw [List.mem_range'_1] at hi
    have hall : ∀ m ∈ c.current ++ [i], m < c.origin.length :=
      List.forall_mem_append.mpr ⟨hcurrent, List.forall_mem_singleton.mpr (by omega)⟩
    rw [if_pos (by omega), @ih ⟨c.origin, combinations, _⟩ _ (Nat.le_of_succ_le hk) hall]
    simp only [List.append_assoc, List.singleton_append]

end Combinator

section

variable {α : Type} {v : List α} {k : ℕ} {p q : List ℕ}

theorem select_sublist {first : ℕ} (h : Ascending v.length k first p) : (select v p).Sublist (v.drop first) := by
  induction p generalizing k first with
  | nil => exact List.nil_sublist _
  | cons i p ih =>
    cases k with
    | zero => cases h.length
    | succ k =>
      obtain ⟨⟨hfirst, hi⟩, hp⟩ := ascending_cons.mp h
      have hdrop : (v.drop i).Sublist (v.drop first) := by
        rw [← Nat.add_sub_of_le hfirst, ← List.drop_drop]
        exact List.drop_sublist _ _
      rw [select_cons hi]
      refine List.Sublist.trans ?_ hdrop
      rw [List.drop_eq_getElem_cons hi]
      exact (ih hp).cons_cons _

theorem Ascending.in_range (h : Ascending v.length k 0 p) : ∀ i ∈ p, i < v.length := fun i hi => (h.range i hi).2

theorem Ascending.nodup_select (hv : v.Nodup) (h : Ascending v.length k 0 p) : (select v p).Nodup :=
  hv.sublist (by simpa using select_sublist h)

variable [DecidableEq α]

theorem map_idxOf_select (hv : v.Nodup) (h : ∀ i ∈ p, i < v.length) : (select v p).map v.idxOf = p := by
  induction p with
  | nil => rfl
  | cons i p ih =>
    obtain ⟨hi, hp⟩ := List.forall_mem_cons.mp h
    rw [select_cons hi, List.map_cons, ih hp, hv.idxOf_getElem]

theorem select_map_idxOf {l : List α} (h : ∀ x ∈ l, x ∈ v) : select v (l.map v.idxOf) = l := by
  induction l with
  | nil => rfl
  | cons x l ih =>
    obtain ⟨hx, hl⟩ := List.forall_mem_cons.mp h
    rw [List.map_cons, select_cons (List.idxOf_lt_length_of_mem hx), ih hl, List.getElem_idxOf]

theorem pairwise_idxOf (hv : v.Nodup) : v.Pairwise fun x y => v.idxOf x < v.idxOf y := by
  rw [List.pairwise_iff_getElem]
  intro i j hi hj hij
  rw [hv.idxOf_getElem, hv.idxOf_getElem]
  exact hij

theorem Ascending.length_select (hv : v.Nodup) (h : Ascending v.length k 0 p) : (select v p).length = k := by
  rw [← h.length, ← List.length_map v.idxOf, map_idxOf_select hv h.in_range]

theorem eq_of_toFinset_select (hv : v.Nodup) (hp : Ascending v.length k 0 p) (hq : Ascending v.length k 0 q)
    (h : (select v p).toFinset = (select v q).toFinset) : p = q := by
  have hperm := (List.perm_of_nodup_nodup_toFinset_eq (hp.nodup_select hv) (hq.nodup_select hv) h).map v.idxOf
  rw [map_idxOf_select hv hp.in_range, map_idxOf_select hv hq.in_range] at hperm
  exact hperm.eq_of_pairwise (fun a b _ _ hab hba => absurd (hab.trans hba) (Nat.lt_irrefl _)) hp.sorted hq.sorted

theorem exists_select (hv : v.Nodup) {s : Finset α} (hs : s ⊆ v.toFinset) (hcard : s.card = k) :
    ∃ p, Ascending v.length k 0 p ∧ (select v p).toFinset = s := by
  have hmem : ∀ x ∈ v.filter (· ∈ s), x ∈ v := fun x hx => List.mem_of_mem_filter hx
  have hfinset : (v.filter (· ∈ s)).toFinset = s := by
    ext x
    simp only [List.mem_toFinset, List.mem_filter, decide_eq_true_eq]
    exact ⟨fun h => h.2, fun h => ⟨List.mem_toFinset.mp (hs h), h⟩⟩
  refine ⟨(v.filter (· ∈ s)).map v.idxOf, ⟨?_, ?_, ?_⟩, by rw [select_map_idxOf hmem, hfinset]⟩
  · rw [List.length_map, ← List.toFinset_card_of_nodup (hv.filter _), hfinset, hcard]
  · rw [List.pairwise_map]
    exact (pairwise_idxOf hv).filter _
  · intro i hi
    obtain ⟨x, hx, rfl⟩ := List.mem_map.mp hi
    exact ⟨Nat.zero_le _, List.idxOf_lt_length_of_mem (hmem x hx)⟩

structure ListsSubsets (v : List α) (k : ℕ) (l : List (List α)) : Prop where
  once : (l.map List.toFinset).Nodup
  subsets : ∀ s : Finset α, s ∈ l.map List.toFinset ↔ s ⊆ v.toFinset ∧ s.card = k
  ordered : ∀ comb ∈ l, comb.Sublist v
  lexicographic : (l.map (List.map v.idxOf)).Pairwise (List.Lex (· < ·))

theorem listsSubsets_positions (hv : v.Nodup) (hk : k ≤ v.length) : ListsSubsets v k ((positions v.length k 0).map (select v)) where
  once := by
    rw [List.map_map]
    refine List.Nodup.map_on (fun p hp q hq h => ?_) ?_
    · exact eq_of_toFinset_select hv ((mem_positions hk).mp hp) ((mem_positions hk).mp hq) h
    · refine positions_sorted.imp fun hlt => ?_
      rintro rfl
      exact List.lex_irrefl Nat.lt_irrefl _ hlt
  subsets := by
    intro s
    rw [List.map_map, List.mem_map]
    constructor
    · rintro ⟨p, hp, rfl⟩
      have hp := (mem_positions hk).mp hp
      refine ⟨fun x hx => ?_, ?_⟩
      · have hsub := select_sublist hp
        rw [List.drop_zero] at hsub
        exact List.mem_toFinset.mpr (hsub.subset (List.mem_toFinset.mp hx))
      · exact (List.toFinset_card_of_nodup (hp.nodup_select hv)).trans (hp.length_select hv)
    · rintro ⟨hs, hcard⟩
      obtain ⟨p, hp, hselect⟩ := exists_select hv hs hcard
      exact ⟨p, (mem_positions hk).mpr hp, hselect⟩
  ordered := by
    intro comb hcomb
    obtain ⟨p, hp, rfl⟩ := List.mem_map.mp hcomb
    have hsub := select_sublist ((mem_positions hk).mp hp)
    rwa [List.drop_zero] at hsub
  lexicographic := by
    have hmap : ((positions v.length k 0).map (select v)).map (List.map v.idxOf) = positions v.length k 0 := by
      rw [List.map_map]
      refine (List.map_congr_left fun p hp => ?_).trans (List.map_id _)
      exact map_idxOf_select hv ((mem_positions hk).mp hp).in_range
    rw [hmap]
    exact positions_sorted

theorem ListsSubsets.length_eq {l : List (List α)} (h : ListsSubsets v k l) (hv : v.Nodup) : l.length = v.length.choose k := by
  have hfinset : (l.map List.toFinset).toFinset = Finset.powersetCard k v.toFinset := by
    ext s
    rw [List.mem_toFinset, h.subsets, Finset.mem_powersetCard]
  rw [← List.length_map List.toFinset, ← List.toFinset_card_of_nodup h.once, hfinset, Finset.card_powersetCard,
    List.toFinset_card_of_nodup hv]

end

theorem countLoop_eq {total turns j : ℕ} {i : UInt64} {n : UInt32} {c : UInt64} (hword : total < 2 ^ 32)
    (htotal : j + turns ≤ total) (hi : i.toNat = j + 1) (hn : n.toNat = total - j) (hc : c.toNat = total.choose j)
    (hfits : ∀ m < j + turns, total.choose m * (total - m) < 2 ^ 64) :
    (countLoop turns i n c).toNat = total.choose (j + turns) := by
  induction turns generalizing j i n c with
  | zero => exact hc
  | succ turns ih =>
    have hproduct : (c * n.toUInt64).toNat = total.choose (j + 1) * (j + 1) := by
      rw [UInt64.toNat_mul, UInt32.toNat_toUInt64, hc, hn, Nat.mod_eq_of_lt (hfits j (by omega)), Nat.choose_succ_right_eq]
    rw [countLoop, show j + (turns + 1) = j + 1 + turns by omega]
    apply ih (by omega)
    · rw [UInt64.toNat_add, hi, UInt64.toNat_one]
      omega
    · rw [UInt32.toNat_sub_of_le _ _ (by rw [UInt32.le_iff_toNat_le, hn, UInt32.toNat_one]; omega), hn, UInt32.toNat_one]
      omega
    · rw [UInt64.toNat_div, hproduct, hi, Nat.mul_div_cancel _ (Nat.succ_pos j)]
    · exact fun m hm => hfits m (by omega)

theorem combinationsCount_eq {k n : UInt32} (hk : k.toNat ≤ n.toNat)
    (hfits : ∀ m < k.toNat, n.toNat.choose m * (n.toNat - m) < 2 ^ 64) :
    ∃ count, combinationsCount k n = .ok count ∧ count.toNat = n.toNat.choose k.toNat := by
  refine ⟨countLoop k.toNat 1 n 1, if_neg ?_, ?_⟩
  · rw [gt_iff_lt, UInt32.lt_iff_toNat_lt]
    omega
  · have hcount := @countLoop_eq n.toNat k.toNat 0 1 n 1 n.toNat_lt (by omega) rfl rfl (by rw [Nat.choose_zero_right]; rfl)
      (fun m hm => hfits m (by omega))
    rwa [Nat.zero_add] at hcount

theorem combine_lists_subsets {α : Type} [DecidableEq α] (c : Combinator α) (hidle : c.current = []) (hnodup : c.origin.Nodup)
    (k : ℕ) (hpos : 0 < k) (hk : k ≤ c.origin.length) :
    ∃ c', c.combine k = .ok c' ∧ c'.origin = c.origin ∧ c'.current = [] ∧ ListsSubsets c.origin k c'.combinations ∧
      ∀ k' n' : UInt32, k'.toNat = k → n'.toNat = c.origin.length →
        (∀ m < k, c.origin.length.choose m * (c.origin.length - m) < 2 ^ 64) →
        ∃ count, combinationsCount k' n' = .ok count ∧ count.toNat = c'.combinations.length := by
  have hlists := listsSubsets_positions hnodup hk
  refine ⟨{ c with combinations := (positions c.origin.length k 0).map (select c.origin) }, ?_, rfl, hidle, hlists, ?_⟩
  · obtain ⟨k, rfl⟩ := Nat.exists_eq_succ_of_ne_zero hpos.ne'
    have hcurrent : ∀ i ∈ c.current, i < c.origin.length := by
      rw [hidle]
      exact List.forall_mem_nil _
    rw [Combinator.combine, if_neg (by omega), if_neg hpos.ne', @Combinator.doCombine_eq α { c with combinations := [] } _ _ hk hcurrent]
    simp only [hidle, List.nil_append]
  · intro k' n' hk' hn' hfits
    obtain ⟨count, hok, hcount⟩ := @combinationsCount_eq k' n' (by rw [hk', hn']; exact hk) (by rw [hk', hn']; exact hfits)
    refine ⟨count, hok, ?_⟩
    rw [hcount, hk', hn', hlists.length_eq hnodup]

theorem combine_lists_subsets_pairs : ∃ c', (Combinator.new ["a", "b", "c"]).combine 2 = .ok c' ∧ c'.origin = ["a", "b", "c"] ∧
    c'.current = [] ∧ ListsSubsets ["a", "b", "c"] 2 c'.combinations ∧
      ∀ k' n' : UInt32, k'.toNat = 2 → n'.toNat = 3 → (∀ m < 2, Nat.choose 3 m * (3 - m) < 2 ^ 64) →
        ∃ count, combinationsCount k' n' = .ok count ∧ count.toNat = c'.combinations.length :=
  combine_lists_subsets (Combinator.new ["a", "b", "c"]) rfl (by decide) 2 (by decide) (by decide)

theorem combine_none_throws :
    (Combinator.new ["a", "b"]).combine 0 = .error (.runtimeError "k must be greater than zero") ∧
      combinationsCount 0 2 = .ok 1 := ⟨rfl, rfl⟩

end Velkavo.Common
