import Mathlib.Data.List.Chain
import Mathlib.Data.List.Nodup

namespace HashChain

variable {β η : Type} (ident prev : β → η) (genesis : β) (blocks : Set β)

def tip (l : List β) : Option η := l.getLast?.map ident

structure Branch (l : List β) : Prop where
  head : l.head? = some genesis
  links : l.IsChain fun a b => prev b = ident a
  mem : ∀ b ∈ l, b ∈ blocks

structure Binding : Prop where
  prev_eq : ∀ a ∈ blocks, ∀ b ∈ blocks, ident a = ident b → prev a = prev b
  rooted : ∀ b ∈ blocks, ident b ≠ prev genesis

variable {ident prev genesis blocks} {l m : List β} {x : β}

@[simp]
theorem tip_concat (l : List β) (x : β) : tip ident (l ++ [x]) = some (ident x) := by
  simp [tip]

theorem tip_eq_some_iff {e : η} : tip ident l = some e ↔ ∃ t, l.getLast? = some t ∧ ident t = e := by
  simp [tip]

namespace Branch

theorem ne_nil (h : Branch ident prev genesis blocks l) : l ≠ [] := by
  rintro rfl
  cases h.head

theorem single (h : genesis ∈ blocks) : Branch ident prev genesis blocks [genesis] :=
  ⟨rfl, List.isChain_singleton _, by simpa using h⟩

theorem left (h : Branch ident prev genesis blocks (l ++ m)) (hl : l ≠ []) :
    Branch ident prev genesis blocks l := by
  refine ⟨?_, (List.isChain_append.mp h.links).1, fun b hb => h.mem b (List.mem_append_left m hb)⟩
  rw [← List.head?_append_of_ne_nil l hl]
  exact h.head

theorem take (h : Branch ident prev genesis blocks l) {n : ℕ} (hn : 0 < n) :
    Branch ident prev genesis blocks (l.take n) := by
  apply left (m := l.drop n)
  · rw [List.take_append_drop]
    exact h
  · rw [ne_eq, List.take_eq_nil_iff, not_or]
    exact ⟨Nat.ne_of_gt hn, h.ne_nil⟩

theorem append (h : Branch ident prev genesis blocks l) (hm : m.IsChain fun a b => prev b = ident a)
    (hjoin : ∀ y ∈ m.head?, tip ident l = some (prev y)) (hmem : ∀ b ∈ m, b ∈ blocks) :
    Branch ident prev genesis blocks (l ++ m) := by
  refine ⟨?_, List.isChain_append.mpr ⟨h.links, hm, ?_⟩, ?_⟩
  · rw [List.head?_append_of_ne_nil l h.ne_nil]
    exact h.head
  · intro a ha b hb
    obtain ⟨t, hlast, hid⟩ := tip_eq_some_iff.mp (hjoin b hb)
    cases hlast.symm.trans ha
    exact hid.symm
  · intro b hb
    rcases List.mem_append.mp hb with hb | hb
    · exact h.mem b hb
    · exact hmem b hb

theorem concat_iff (hl : l ≠ []) :
    Branch ident prev genesis blocks (l ++ [x]) ↔
      Branch ident prev genesis blocks l ∧ tip ident l = some (prev x) ∧ x ∈ blocks := by
  constructor
  · intro h
    refine ⟨h.left hl, ?_, h.mem x (by simp)⟩
    obtain ⟨-, -, hlink⟩ := List.isChain_append.mp h.links
    have ht := List.getLast?_eq_some_getLast hl
    rw [tip, ht, Option.map_some, hlink _ ht x rfl]
  · rintro ⟨h, ht, hx⟩
    exact h.append (List.isChain_singleton x) (by simpa using ht) (by simpa using hx)

theorem concat (h : Branch ident prev genesis blocks l) (ht : tip ident l = some (prev x))
    (hx : x ∈ blocks) : Branch ident prev genesis blocks (l ++ [x]) :=
  (concat_iff h.ne_nil).mpr ⟨h, ht, hx⟩

theorem map_ident_eq (hb : Binding ident prev genesis blocks) (hl : Branch ident prev genesis blocks l)
    (hm : Branch ident prev genesis blocks m) (h : tip ident l = tip ident m) :
    l.map ident = m.map ident := by
  induction l using List.reverseRecOn generalizing m with
  | nil => exact absurd rfl hl.ne_nil
  | append_singleton l x ih =>
    obtain ⟨m, y, rfl⟩ := List.eq_nil_or_concat' m |>.resolve_left hm.ne_nil
    have hid : ident x = ident y := by simpa using h
    have hprev : prev x = prev y := hb.prev_eq x (hl.mem x (by simp)) y (hm.mem y (by simp)) hid
    -- a branch of one block cannot meet a longer one: its block is the genesis block
    have hroot : ∀ {k : List β} {z : β}, Branch ident prev genesis blocks (k ++ [z]) → k ≠ [] →
        prev z ≠ prev genesis := by
      intro k z hk hne heq
      obtain ⟨t, ht, hidt⟩ := tip_eq_some_iff.mp ((concat_iff hne).mp hk).2.1
      exact hb.rooted t (hk.mem t (List.mem_append_left _ (List.mem_of_getLast? ht))) (hidt.trans heq)
    by_cases hle : l = []
    · subst hle
      obtain rfl : x = genesis := by simpa using hl.head
      by_cases hme : m = []
      · subst hme
        simp [hid]
      · exact absurd hprev.symm (hroot hm hme)
    · by_cases hme : m = []
      · subst hme
        obtain rfl : y = genesis := by simpa using hm.head
        exact absurd hprev (hroot hl hle)
      · obtain ⟨hl', htl, -⟩ := (concat_iff hle).mp hl
        obtain ⟨hm', htm, -⟩ := (concat_iff hme).mp hm
        rw [List.map_append, List.map_append, ih hl' hm' (by rw [htl, htm, hprev])]
        simp [hid]

theorem tip_take {n : ℕ} {y : β} (h : l[n]? = some y) : tip ident (l.take (n + 1)) = some (ident y) := by
  rw [List.take_add_one, h]
  simp

theorem nodup (hb : Binding ident prev genesis blocks) (hl : Branch ident prev genesis blocks l) :
    (l.map ident).Nodup := by
  rw [List.nodup_iff_injective_getElem]
  rintro ⟨i, hi⟩ ⟨j, hj⟩ hij
  rw [List.length_map] at hi hj
  have hid : ident l[i] = ident l[j] := by simpa using hij
  have h := map_ident_eq hb (hl.take i.succ_pos) (hl.take j.succ_pos)
    (by rw [tip_take (List.getElem?_eq_getElem hi), tip_take (List.getElem?_eq_getElem hj), hid])
  have hlen := congrArg List.length h
  simp only [List.length_map, List.length_take] at hlen
  apply Fin.ext
  change i = j
  omega

theorem take_eq_of_getElem (hb : Binding ident prev genesis blocks) (hl : Branch ident prev genesis blocks l)
    (hm : Branch ident prev genesis blocks m) {i j : ℕ} {e : η} (hi : (l.map ident)[i]? = some e)
    (hj : (m.map ident)[j]? = some e) : i = j ∧ (l.map ident).take (i + 1) = (m.map ident).take (i + 1) := by
  rw [List.getElem?_map] at hi hj
  obtain ⟨x, hx, hidx⟩ := Option.map_eq_some_iff.mp hi
  obtain ⟨y, hy, hidy⟩ := Option.map_eq_some_iff.mp hj
  have h := map_ident_eq hb (hl.take i.succ_pos) (hm.take j.succ_pos)
    (by rw [tip_take hx, tip_take hy, hidx, hidy])
  have hlen := congrArg List.length h
  have hilt := (List.getElem?_eq_some_iff.mp hx).1
  have hjlt := (List.getElem?_eq_some_iff.mp hy).1
  simp only [List.length_map, List.length_take] at hlen
  obtain rfl : i = j := by omega
  rw [List.map_take, List.map_take] at h
  exact ⟨rfl, h⟩

theorem prev_getElem {i : ℕ} {y : β} (hl : Branch ident prev genesis blocks l) (hy : l[i + 1]? = some y) :
    (l.map ident)[i]? = some (prev y) := by
  obtain ⟨hi, rfl⟩ := List.getElem?_eq_some_iff.mp hy
  have hlink := List.isChain_iff_getElem.mp hl.links i hi
  rw [List.getElem?_map, List.getElem?_eq_getElem (by omega), Option.map_some, hlink]

theorem tip_take_getElem {i : ℕ} {y : β} (hl : Branch ident prev genesis blocks l) (hi : 0 < i)
    (hy : l[i]? = some y) : tip ident (l.take i) = some (prev y) := by
  obtain ⟨j, rfl⟩ : ∃ j, i = j + 1 := ⟨i - 1, by omega⟩
  have hprev := hl.prev_getElem hy
  rw [List.getElem?_map] at hprev
  obtain ⟨t, ht, hid⟩ := Option.map_eq_some_iff.mp hprev
  rw [tip_take ht, hid]

end Branch

end HashChain
