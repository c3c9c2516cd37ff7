import Mathlib.Algebra.Ring.Nat
import Mathlib.Data.List.Sort
import Velkavo.Containers.SortedTable
import Velkavo.Effects.Runs

/-! The map from the sources of transactions to the outgoing connections of a Dandelion++ epoch. -/

namespace Velkavo.Net.Dandelionpp

def sizeMax : ℕ := 2 ^ 64 - 1

section

variable {α : Type}

def swapAt (l : List α) (i j : ℕ) : Option (List α) := do
  let x ← l[i]?
  let y ← l[j]?
  some ((l.set i y).set j x)

def modifyAt (l : List α) (i : ℕ) (f : α → α) : Option (List α) := if i < l.length then some (l.modify i f) else none

def takeRandom (rand : ℕ) (l : List α) : Option (α × List α) := do
  let swapped ← swapAt l (l.length - 1) (rand % l.length)
  let x ← swapped.getLast?
  some (x, swapped.dropLast)

end

variable {Uuid : Type} [LinearOrder Uuid] (nil : Uuid)

structure ConnectionMap (Uuid : Type) [LinearOrder Uuid] where
  outMapping : List Uuid
  inMapping : OrderedMap (id : Uuid → Uuid) ℕ
  usageCount : List ℕ

structure Shuffle (Uuid : Type) where
  shuffle : List Uuid → List Uuid
  perm : ∀ l, (shuffle l).Perm l

def lowerBound (l : List Uuid) (v : Uuid) : ℕ := l.findIdx fun x => decide (v ≤ x)

def addChoice (choice : Option ℕ × List ℕ) (location count : ℕ) : Option ℕ × List ℕ :=
  match choice.1 with
  | none => (some count, [location])
  | some lowest =>
    if count < lowest then (some count, [location])
    else if count = lowest then (some lowest, choice.2 ++ [location])
    else choice

def stemChoices (usage : List ℕ) : ℕ → List Uuid → Option ℕ × List ℕ → Option (Option ℕ × List ℕ)
  | _, [], choice => some choice
  | location, out :: rest, choice =>
    if out = nil then stemChoices usage (location + 1) rest choice
    else do
      let count ← usage[location]?
      stemChoices usage (location + 1) rest (addChoice choice location count)

def selectStem (rand : ℕ) (usage : List ℕ) (outMap : List Uuid) : Option ℕ :=
  if usage.length < outMap.length then some sizeMax
  else do
    let choice ← stemChoices nil usage 0 outMap (none, [])
    match choice.2 with
    | [] => some sizeMax
    | [location] => some location
    | choices => choices[rand % choices.length]?

namespace ConnectionMap

def construct (s : Shuffle Uuid) (rand : ℕ → ℕ) (outConnections : List Uuid) (stems : ℕ) : Option (ConnectionMap Uuid) :=
  if stems = sizeMax then none
  else if stems < outConnections.length then do
    let outs ← (List.range stems).foldlM (fun outs i => swapAt outs i (i + rand i % (outs.length - i))) outConnections
    some ⟨outs.take stems, ∅, List.replicate stems 0⟩
  else some ⟨s.shuffle outConnections, ∅, List.replicate stems 0⟩

structure Kept (Uuid : Type) where
  outs : List Uuid
  current : List Uuid
  replace : Bool

def keepStep (k : Kept Uuid) (existing : Uuid) : Kept Uuid :=
  let elem := lowerBound k.current existing
  if k.current[elem]? = some existing then ⟨k.outs ++ [existing], k.current.eraseIdx elem, k.replace⟩
  else ⟨k.outs ++ [nil], k.current, true⟩

def fillStep (rand : ℕ → ℕ) (x : List Uuid × List Uuid) (i : ℕ) : Option (List Uuid × List Uuid) :=
  if x.2 = [] then some x
  else if x.1.length ≤ i then do
    let taken ← takeRandom (rand i) x.2
    some (x.1 ++ [taken.1], taken.2)
  else if x.1[i]? = some nil then do
    let taken ← takeRandom (rand i) x.2
    some (x.1.set i taken.1, taken.2)
  else some x

variable (m : ConnectionMap Uuid)

def update (rand : ℕ → ℕ) (current : List Uuid) : Option (ConnectionMap Uuid × Bool) :=
  let kept := m.outMapping.foldl (keepStep nil) ⟨[], current.mergeSort (· ≤ ·), false⟩
  if kept.replace = false ∧ m.outMapping.length = m.usageCount.length then some ({ m with outMapping := kept.outs }, false)
  else do
    let filled ← (List.range m.usageCount.length).foldlM (fillStep nil rand) (kept.outs, kept.current)
    some ({ m with outMapping := filled.1 }, kept.replace || decide (m.outMapping.length < filled.1.length))

def assignStem (rand : ℕ) (source : Uuid) (usage : List ℕ) (otherwise : ConnectionMap Uuid) :
    Option (ConnectionMap Uuid × Uuid) := do
  let index ← selectStem nil rand usage m.outMapping
  if m.outMapping.length < index then some (otherwise, nil)
  else do
    let usage ← modifyAt usage index (· + 1)
    let out ← m.outMapping[index]?
    some ({ m with inMapping := m.inMapping.assign source index, usageCount := usage }, out)

def getStem (rand : ℕ) (source : Uuid) : Option (ConnectionMap Uuid × Uuid) :=
  match m.inMapping.find? source with
  | none => m.assignStem nil rand source m.usageCount m
  | some index => do
    let out ← m.outMapping[index]?
    if out = nil then do
      let usage ← modifyAt m.usageCount index fun count => if count = 0 then sizeMax else count - 1
      m.assignStem nil rand source usage { m with inMapping := m.inMapping.erase source, usageCount := usage }
    else some (m, out)

end ConnectionMap

inductive Operation (Uuid : Type)
  | update (current : List Uuid) (rand : ℕ → ℕ)
  | getStem (source : Uuid) (rand : ℕ)

def step (m : ConnectionMap Uuid) : Operation Uuid → Option (ConnectionMap Uuid)
  | .update current rand => (m.update nil rand current).map Prod.fst
  | .getStem source rand => (m.getStem nil rand source).map Prod.fst

def run (ops : List (Operation Uuid)) (m : ConnectionMap Uuid) : Option (ConnectionMap Uuid) := ops.foldlM (step nil) m

section

variable {α : Type} {l : List α}

theorem exists_swapAt {i j : ℕ} (hi : i < l.length) (hj : j < l.length) : ∃ l', swapAt l i j = some l' ∧ l'.Perm l := by
  refine ⟨(l.set i l[j]).set j l[i], ?_, List.set_set_perm hi hj⟩
  rw [swapAt, List.getElem?_eq_getElem hi, List.getElem?_eq_getElem hj]
  rfl

theorem exists_takeRandom (rand : ℕ) (h : l ≠ []) : ∃ x rest, takeRandom rand l = some (x, rest) ∧ l.Perm (x :: rest) := by
  have hlength := List.length_pos_iff.mpr h
  obtain ⟨swapped, hswap, hperm⟩ := exists_swapAt (i := l.length - 1) (j := rand % l.length) (by omega) (Nat.mod_lt _ hlength)
  have hne : swapped ≠ [] := fun hnil => h (by rwa [hnil, List.nil_perm] at hperm)
  refine ⟨swapped.getLast hne, swapped.dropLast, ?_, ?_⟩
  · rw [takeRandom, hswap, Option.bind_eq_bind, Option.bind_some, List.getLast?_eq_some_getLast hne]
    rfl
  · refine hperm.symm.trans ?_
    nth_rewrite 1 [← List.dropLast_append_getLast hne]
    exact List.perm_append_comm

end

section

variable {nil}

def live (nil : Uuid) (outs : List Uuid) : List Uuid := outs.filter fun out => decide (out ≠ nil)

theorem live_append (outs outs' : List Uuid) : live nil (outs ++ outs') = live nil outs ++ live nil outs' :=
  List.filter_append ..

theorem live_singleton_nil : live nil [nil] = [] := List.filter_eq_nil_iff.mpr (by simp)

theorem live_singleton {out : Uuid} (h : out ≠ nil) : live nil [out] = [out] := List.filter_eq_self.mpr (by simpa using h)

variable {outs given : List Uuid} {k : ConnectionMap.Kept Uuid}

theorem mem_live {out : Uuid} : out ∈ live nil outs ↔ out ∈ outs ∧ out ≠ nil := by
  rw [live, List.mem_filter, decide_eq_true_eq]

theorem live_set {i : ℕ} {out : Uuid} (hi : outs[i]? = some nil) (hout : out ≠ nil) :
    (live nil (outs.set i out)).Perm (out :: live nil outs) := by
  obtain ⟨hlt, hget⟩ := List.getElem?_eq_some_iff.mp hi
  have hsplit : outs = outs.take i ++ nil :: outs.drop (i + 1) := by
    rw [← hget, List.getElem_cons_drop, List.take_append_drop]
  have hset : outs.set i out = outs.take i ++ out :: outs.drop (i + 1) := List.set_eq_take_append_cons_drop.trans (if_pos hlt)
  have hold : live nil outs = live nil (outs.take i) ++ live nil (outs.drop (i + 1)) := by
    nth_rewrite 1 [hsplit]
    rw [List.append_cons, live_append, live_append, live_singleton_nil, List.append_nil]
  have hnew : live nil (outs.set i out) = live nil (outs.take i) ++ out :: live nil (outs.drop (i + 1)) := by
    rw [hset, List.append_cons, live_append, live_append, live_singleton hout, ← List.append_cons]
  rw [hold, hnew]
  exact List.perm_middle

theorem lowerBound_eq_idxOf {l : List Uuid} {v : Uuid} (hsorted : l.Pairwise (· ≤ ·)) (h : v ∈ l) : lowerBound l v = l.idxOf v := by
  induction l with
  | nil => cases h
  | cons x l ih =>
    obtain ⟨hx, hl⟩ := List.pairwise_cons.mp hsorted
    rw [lowerBound, List.findIdx_cons, List.idxOf_cons]
    by_cases hle : v ≤ x
    · have heq : x = v := by
        rcases List.mem_cons.mp h with rfl | hmem
        · rfl
        · exact le_antisymm (hx v hmem) hle
      simp [heq]
    · have hne : x ≠ v := fun heq => hle heq.ge
      have hmem : v ∈ l := (List.mem_cons.mp h).resolve_left (Ne.symm hne)
      simp only [hle, decide_false, cond_false, beq_eq_false_iff_ne.mpr hne]
      exact congrArg (· + 1) (ih hl hmem)

theorem keepStep_of_mem {existing : Uuid} (hsorted : k.current.Pairwise (· ≤ ·))
    (h : existing ∈ k.current) :
    ConnectionMap.keepStep nil k existing = ⟨k.outs ++ [existing], k.current.erase existing, k.replace⟩ := by
  rw [ConnectionMap.keepStep, lowerBound_eq_idxOf hsorted h, List.getElem?_idxOf h, if_pos rfl,
    ← List.erase_eq_eraseIdx_of_idxOf rfl]

theorem keepStep_of_not_mem {existing : Uuid} (h : existing ∉ k.current) :
    ConnectionMap.keepStep nil k existing = ⟨k.outs ++ [nil], k.current, true⟩ :=
  if_neg fun hget => h (List.mem_of_getElem? hget)

structure Keeping (nil : Uuid) (given : List Uuid) (k : ConnectionMap.Kept Uuid) : Prop where
  sorted : k.current.Pairwise (· ≤ ·)
  perm : (live nil k.outs ++ k.current).Perm given

theorem Keeping.step (hnil : nil ∉ given) (h : Keeping nil given k)
    (existing : Uuid) : Keeping nil given (ConnectionMap.keepStep nil k existing) := by
  by_cases hmem : existing ∈ k.current
  · have hgiven : existing ∈ given := h.perm.mem_iff.mp (List.mem_append_right _ hmem)
    have hne : existing ≠ nil := fun heq => hnil (heq ▸ hgiven)
    rw [keepStep_of_mem h.sorted hmem]
    refine ⟨h.sorted.sublist List.erase_sublist, ?_⟩
    rw [live_append, live_singleton hne, List.append_assoc]
    exact ((List.perm_cons_erase hmem).symm.append_left _).trans h.perm
  · rw [keepStep_of_not_mem hmem]
    refine ⟨h.sorted, ?_⟩
    rw [live_append, live_singleton_nil, List.append_nil]
    exact h.perm

theorem Keeping.foldl (hnil : nil ∉ given) (h : Keeping nil given k)
    (outs : List Uuid) : Keeping nil given (outs.foldl (ConnectionMap.keepStep nil) k) := by
  induction outs generalizing k with
  | nil => exact h
  | cons existing outs ih => exact ih (h.step hnil existing)

theorem foldl_keepStep (outs : List Uuid) (k : ConnectionMap.Kept Uuid) : ∃ new,
    (outs.foldl (ConnectionMap.keepStep nil) k).outs = k.outs ++ new ∧ new.length = outs.length ∧
      ∀ out ∈ new, out = nil ∨ out ∈ outs := by
  induction outs generalizing k with
  | nil => exact ⟨[], (List.append_nil _).symm, rfl, fun out hout => absurd hout List.not_mem_nil⟩
  | cons existing outs ih =>
    obtain ⟨first, hfirst, hor⟩ : ∃ first, (ConnectionMap.keepStep nil k existing).outs = k.outs ++ [first] ∧
        (first = nil ∨ first = existing) := by
      rw [ConnectionMap.keepStep]
      split_ifs
      · exact ⟨existing, rfl, .inr rfl⟩
      · exact ⟨nil, rfl, .inl rfl⟩
    obtain ⟨new, hnew, hlength, hmem⟩ := ih (ConnectionMap.keepStep nil k existing)
    refine ⟨first :: new, ?_, congrArg (· + 1) hlength, fun out hout => ?_⟩
    · rw [List.foldl_cons, hnew, hfirst, ← List.append_cons]
    · rcases List.mem_cons.mp hout with rfl | hout
      · refine hor.imp id fun heq => ?_
        rw [heq]
        exact List.mem_cons_self
      · exact (hmem out hout).imp id (List.mem_cons_of_mem _)

theorem getElem?_foldl_keepStep {current : List Uuid} {i : ℕ} {c : Uuid} (hnil : nil ∉ given)
    (hk : Keeping nil given ⟨[], current, false⟩) (hlive : (live nil outs).Nodup) (hi : outs[i]? = some c) (hc : c ∈ given) :
    (outs.foldl (ConnectionMap.keepStep nil) ⟨[], current, false⟩).outs[i]? = some c := by
  obtain ⟨hlt, hget⟩ := List.getElem?_eq_some_iff.mp hi
  have hne : c ≠ nil := fun heq => hnil (heq ▸ hc)
  have hsplit : outs = outs.take i ++ c :: outs.drop (i + 1) := by
    rw [← hget, List.getElem_cons_drop, List.take_append_drop]
  have hbefore : c ∉ outs.take i := by
    intro hmem
    rw [hsplit, List.append_cons, live_append, live_append, live_singleton hne] at hlive
    have hdisjoint := List.disjoint_of_nodup_append (List.nodup_append.mp hlive).1
    exact hdisjoint (mem_live.mpr ⟨hmem, hne⟩) List.mem_cons_self
  -- the connection is still a candidate when its slot is reached
  set k := (outs.take i).foldl (ConnectionMap.keepStep nil) ⟨[], current, false⟩ with hkdef
  have hkeeping : Keeping nil given k := hk.foldl hnil _
  obtain ⟨new, hnew, hlength, hmem⟩ := @foldl_keepStep _ _ nil (outs.take i) ⟨[], current, false⟩
  rw [← hkdef, List.nil_append] at hnew
  have hcurrent : c ∈ k.current := by
    rcases List.mem_append.mp (hkeeping.perm.mem_iff.mpr hc) with hkept | hcurrent
    · rw [hnew] at hkept
      rcases hmem c (mem_live.mp hkept).1 with heq | hmem
      · exact absurd heq hne
      · exact absurd hmem hbefore
    · exact hcurrent
  obtain ⟨rest, hrest, -, -⟩ := @foldl_keepStep _ _ nil (outs.drop (i + 1)) (ConnectionMap.keepStep nil k c)
  rw [hsplit, List.foldl_append, List.foldl_cons, ← hkdef, hrest, keepStep_of_mem hkeeping.sorted hcurrent, hnew]
  have hplace : new.length = i := by rw [hlength, List.length_take, Nat.min_eq_left hlt.le]
  rw [List.append_assoc, List.getElem?_append_right hplace.le, hplace, Nat.sub_self]
  rfl

structure Filling (nil : Uuid) (given start : List Uuid) (stems : ℕ) (x : List Uuid × List Uuid) : Prop where
  perm : (live nil x.1 ++ x.2).Perm given
  length : x.1.length ≤ stems
  grows : start.length ≤ x.1.length
  kept : ∀ (i : ℕ) (c : Uuid), start[i]? = some c → c ≠ nil → x.1[i]? = some c

theorem Filling.step {start : List Uuid} {stems i : ℕ} {x : List Uuid × List Uuid} (rand : ℕ → ℕ) (hnil : nil ∉ given)
    (hi : i < stems) (h : Filling nil given start stems x) :
    ∃ x', ConnectionMap.fillStep nil rand x i = some x' ∧ Filling nil given start stems x' := by
  rw [ConnectionMap.fillStep]
  by_cases hempty : x.2 = []
  · exact ⟨x, if_pos hempty, h⟩
  rw [if_neg hempty]
  obtain ⟨c, rest, htake, hperm⟩ := exists_takeRandom (rand i) hempty
  have hgiven : c ∈ given := h.perm.mem_iff.mp (List.mem_append_right _ (hperm.mem_iff.mpr List.mem_cons_self))
  have hne : c ≠ nil := fun heq => hnil (heq ▸ hgiven)
  have hrest : (live nil x.1 ++ c :: rest).Perm given := (hperm.symm.append_left _).trans h.perm
  by_cases hlength : x.1.length ≤ i
  · refine ⟨(x.1 ++ [c], rest), ?_, ?_⟩
    · rw [if_pos hlength, htake]
      rfl
    · refine ⟨?_, ?_, ?_, fun j d hj hd => ?_⟩
      · rw [live_append, live_singleton hne, ← List.append_cons]
        exact hrest
      · rw [List.length_append, List.length_singleton]
        omega
      · rw [List.length_append]
        exact h.grows.trans (Nat.le_add_right _ _)
      · have hold := h.kept j d hj hd
        rw [List.getElem?_append_left (List.getElem?_eq_some_iff.mp hold).1, hold]
  rw [if_neg hlength]
  by_cases hslot : x.1[i]? = some nil
  · refine ⟨(x.1.set i c, rest), ?_, ?_⟩
    · rw [if_pos hslot, htake]
      rfl
    · refine ⟨?_, ?_, ?_, fun j d hj hd => ?_⟩
      · exact ((live_set hslot hne).append_right _).trans (List.perm_middle.symm.trans hrest)
      · rw [List.length_set]
        exact h.length
      · rw [List.length_set]
        exact h.grows
      · have hold := h.kept j d hj hd
        have hij : i ≠ j := by
          rintro rfl
          rw [hslot, Option.some_inj] at hold
          exact hd hold.symm
        rw [List.getElem?_set_ne hij, hold]
  · exact ⟨x, if_neg hslot, h⟩

end

section

variable {nil}

structure Choosing (nil : Uuid) (outs done : List Uuid) (choice : Option ℕ × List ℕ) : Prop where
  places : ∀ location ∈ choice.2, ∃ c, outs[location]? = some c ∧ c ≠ nil
  lowest : choice.1 ≠ none → choice.2 ≠ []
  none : choice.2 = [] → ∀ c ∈ done, c = nil

theorem addChoice_ne_nil {choice : Option ℕ × List ℕ} (h : choice.1 ≠ none → choice.2 ≠ []) (location count : ℕ) :
    (addChoice choice location count).2 ≠ [] := by
  rw [addChoice]
  split
  next => exact List.cons_ne_nil _ _
  next lowest hlowest =>
    split_ifs
    · exact List.cons_ne_nil _ _
    · simp
    · exact h (by simp [hlowest])

theorem mem_addChoice {choice : Option ℕ × List ℕ} {location count i : ℕ} (h : i ∈ (addChoice choice location count).2) :
    i = location ∨ i ∈ choice.2 := by
  rw [addChoice] at h
  split at h
  next => exact .inl (List.mem_singleton.mp h)
  next =>
    split_ifs at h
    · exact .inl (List.mem_singleton.mp h)
    · rcases List.mem_append.mp h with h | h
      · exact .inr h
      · exact .inl (List.mem_singleton.mp h)
    · exact .inr h

theorem exists_stemChoices {usage : List ℕ} {outs : List Uuid} (h : outs.length ≤ usage.length) (rest : List Uuid) :
    ∀ (done : List Uuid) (choice : Option ℕ × List ℕ), outs = done ++ rest → Choosing nil outs done choice →
      ∃ choice', stemChoices nil usage done.length rest choice = some choice' ∧ Choosing nil outs outs choice' := by
  induction rest with
  | nil =>
    rintro done choice heq hchoice
    rw [List.append_nil] at heq
    subst heq
    exact ⟨choice, rfl, hchoice⟩
  | cons out rest ih =>
    rintro done choice heq hchoice
    have hlength : (done ++ [out]).length = done.length + 1 := by rw [List.length_append, List.length_singleton]
    rw [List.append_cons] at heq
    by_cases hout : out = nil
    · obtain ⟨choice', hrun, hchoice'⟩ := ih (done ++ [out]) choice heq
        ⟨hchoice.places, hchoice.lowest, fun hnone => List.forall_mem_append.mpr
          ⟨hchoice.none hnone, List.forall_mem_singleton.mpr hout⟩⟩
      refine ⟨choice', ?_, hchoice'⟩
      rw [stemChoices, if_pos hout, ← hlength, hrun]
    · have hplace : outs[done.length]? = some out := by
        rw [heq, List.append_assoc, List.getElem?_append_right le_rfl, Nat.sub_self]
        rfl
      have hlt : done.length < usage.length := (List.getElem?_eq_some_iff.mp hplace).1.trans_le h
      have hne := addChoice_ne_nil hchoice.lowest done.length usage[done.length]
      have hplaces : ∀ location ∈ (addChoice choice done.length usage[done.length]).2,
          ∃ c, outs[location]? = some c ∧ c ≠ nil := by
        intro location hlocation
        rcases mem_addChoice hlocation with rfl | hlocation
        · exact ⟨out, hplace, hout⟩
        · exact hchoice.places location hlocation
      obtain ⟨choice', hrun, hchoice'⟩ := ih (done ++ [out]) (addChoice choice done.length usage[done.length]) heq
        ⟨hplaces, fun _ => hne, fun hnone => absurd hnone hne⟩
      refine ⟨choice', ?_, hchoice'⟩
      rw [stemChoices, if_neg hout, List.getElem?_eq_getElem hlt, ← hrun, hlength]
      rfl

theorem exists_selectStem (rand : ℕ) {usage : List ℕ} {outs : List Uuid} (h : outs.length ≤ usage.length) :
    ∃ index, selectStem nil rand usage outs = some index ∧
      ((index = sizeMax ∧ ∀ c ∈ outs, c = nil) ∨ ∃ c, outs[index]? = some c ∧ c ≠ nil) := by
  obtain ⟨⟨lowest, choices⟩, hrun, hchoice⟩ := exists_stemChoices h outs [] (none, []) rfl
    ⟨fun location hlocation => absurd hlocation List.not_mem_nil, fun hne => absurd rfl hne,
      fun _ c hc => absurd hc List.not_mem_nil⟩
  rw [List.length_nil] at hrun
  rw [selectStem, if_neg (Nat.not_lt.mpr h), hrun, Option.bind_eq_bind, Option.bind_some]
  rcases choices with _ | ⟨first, _ | ⟨second, rest⟩⟩
  · exact ⟨sizeMax, rfl, .inl ⟨rfl, hchoice.none rfl⟩⟩
  · exact ⟨first, rfl, .inr (hchoice.places first List.mem_cons_self)⟩
  · have hlt : rand % (first :: second :: rest).length < (first :: second :: rest).length :=
      Nat.mod_lt _ (Nat.succ_pos _)
    exact ⟨_, List.getElem?_eq_getElem hlt, .inr (hchoice.places _ (List.getElem_mem hlt))⟩

structure Valid (nil : Uuid) (stems : ℕ) (m : ConnectionMap Uuid) : Prop where
  usage_length : m.usageCount.length = stems
  outs_length : m.outMapping.length ≤ stems
  live_nodup : (live nil m.outMapping).Nodup
  mapped : ∀ x ∈ m.inMapping.entries, x.2 < m.outMapping.length
  usage : ∀ i < stems, m.usageCount[i]? = some (m.inMapping.entries.countP fun x => decide (x.2 = i))

variable {stems : ℕ} {m : ConnectionMap Uuid}

theorem Valid.update (h : Valid nil stems m) (rand : ℕ → ℕ) {current : List Uuid} (hnodup : current.Nodup)
    (hnil : nil ∉ current) : ∃ m' changed, m.update nil rand current = some (m', changed) ∧ Valid nil stems m' ∧
      m'.inMapping = m.inMapping ∧
      ∀ (i : ℕ) (c : Uuid), m.outMapping[i]? = some c → c ∈ current → m'.outMapping[i]? = some c := by
  have hstart : Keeping nil current ⟨[], current.mergeSort (· ≤ ·), false⟩ :=
    ⟨List.pairwise_mergeSort' (· ≤ ·) current, List.mergeSort_perm current _⟩
  have hkeeping := hstart.foldl hnil m.outMapping
  obtain ⟨new, hnew, hlength, -⟩ := @foldl_keepStep _ _ nil m.outMapping ⟨[], current.mergeSort (· ≤ ·), false⟩
  rw [List.nil_append] at hnew
  have hkept : ∀ (i : ℕ) (c : Uuid), m.outMapping[i]? = some c → c ∈ current →
      (m.outMapping.foldl (ConnectionMap.keepStep nil) ⟨[], current.mergeSort (· ≤ ·), false⟩).outs[i]? = some c :=
    fun i c hi hc => getElem?_foldl_keepStep hnil hstart h.live_nodup hi hc
  -- slots that hold given connections are a valid map again
  have hvalid : ∀ outs rest : List Uuid, (live nil outs ++ rest).Perm current → outs.length ≤ stems →
      m.outMapping.length ≤ outs.length → Valid nil stems { m with outMapping := outs } := by
    intro outs rest hperm hle hgrows
    exact ⟨h.usage_length, hle, (List.nodup_append.mp (hperm.nodup_iff.mpr hnodup)).1,
      fun x hx => (h.mapped x hx).trans_le hgrows, h.usage⟩
  rw [ConnectionMap.update]
  set kept := m.outMapping.foldl (ConnectionMap.keepStep nil) ⟨[], current.mergeSort (· ≤ ·), false⟩ with hdef
  have hlength' : kept.outs.length = m.outMapping.length := by rw [hnew, hlength]
  split_ifs with hsame
  · exact ⟨_, _, rfl, hvalid kept.outs kept.current hkeeping.perm (hlength' ▸ h.outs_length) hlength'.ge, rfl, hkept⟩
  · obtain ⟨filled, hrun, hfilling⟩ := @Effects.exists_foldlM _ _ (List.range m.usageCount.length)
      (ConnectionMap.fillStep nil rand) (kept.outs, kept.current) (Filling nil current kept.outs stems)
      ⟨hkeeping.perm, hlength' ▸ h.outs_length, le_rfl, fun i c hi _ => hi⟩
      fun x i hi hx => hx.step rand hnil (by rwa [List.mem_range, h.usage_length] at hi)
    rw [hrun]
    refine ⟨_, _, rfl, hvalid filled.1 filled.2 hfilling.perm hfilling.length (hlength'.ge.trans hfilling.grows), rfl, ?_⟩
    exact fun i c hi hc => hfilling.kept i c (hkept i c hi hc) fun heq => hnil (heq ▸ hc)

theorem Valid.assign (h : Valid nil stems m) {source : Uuid} {index : ℕ} {c : Uuid} (hnone : m.inMapping.find? source = none)
    (hindex : m.outMapping[index]? = some c) : ∃ usage, modifyAt m.usageCount index (· + 1) = some usage ∧
      Valid nil stems { m with inMapping := m.inMapping.assign source index, usageCount := usage } := by
  have hlt := (List.getElem?_eq_some_iff.mp hindex).1
  have hlt' : index < m.usageCount.length := (hlt.trans_le h.outs_length).trans_eq h.usage_length.symm
  have hperm := OrderedMap.perm_assign hnone index
  refine ⟨_, if_pos hlt', ?_, h.outs_length, h.live_nodup, fun x hx => ?_, fun i hi => ?_⟩
  · rw [List.length_modify, h.usage_length]
  · rcases List.mem_cons.mp (hperm.mem_iff.mp hx) with rfl | hx
    · exact hlt
    · exact h.mapped x hx
  · rw [List.getElem?_modify, h.usage i hi, hperm.countP_eq, List.countP_cons]
    by_cases hindex : index = i <;> simp [hindex]

theorem Valid.forget (h : Valid nil stems m) {source : Uuid} {index : ℕ} (hfound : m.inMapping.find? source = some index) :
    ∃ usage, modifyAt m.usageCount index (fun count => if count = 0 then sizeMax else count - 1) = some usage ∧
      Valid nil stems { m with inMapping := m.inMapping.erase source, usageCount := usage } := by
  have hperm := OrderedMap.perm_erase Function.injective_id hfound
  have hlt := h.mapped (source, index) (hperm.mem_iff.mpr List.mem_cons_self)
  have hlt' : index < m.usageCount.length := (hlt.trans_le h.outs_length).trans_eq h.usage_length.symm
  refine ⟨_, if_pos hlt', ?_, h.outs_length, h.live_nodup, fun x hx => ?_, fun i hi => ?_⟩
  · rw [List.length_modify, h.usage_length]
  · exact h.mapped x (hperm.mem_iff.mpr (List.mem_cons_of_mem _ hx))
  · rw [List.getElem?_modify, h.usage i hi, hperm.countP_eq, List.countP_cons]
    by_cases hindex : index = i <;> simp [hindex]

structure Stem (nil : Uuid) (stems : ℕ) (m : ConnectionMap Uuid) (source : Uuid) (m' : ConnectionMap Uuid) (out : Uuid) :
    Prop where
  valid : Valid nil stems m'
  outs : m'.outMapping = m.outMapping
  none : out = nil → ∀ c ∈ m.outMapping, c = nil
  found : out ≠ nil → ∃ index, m'.inMapping.find? source = some index ∧ m.outMapping[index]? = some out
  others : ∀ s ≠ source, m'.inMapping.find? s = m.inMapping.find? s

theorem Valid.assignStem (h : Valid nil stems m) (hstems : stems < sizeMax) (rand : ℕ) {source : Uuid}
    (hnone : m.inMapping.find? source = none) : ∃ m' out, m.assignStem nil rand source m.usageCount m = some (m', out) ∧
      Stem nil stems m source m' out := by
  obtain ⟨index, hselect, hindex⟩ :=
    @exists_selectStem _ _ nil rand m.usageCount m.outMapping (h.outs_length.trans_eq h.usage_length.symm)
  rw [ConnectionMap.assignStem, hselect, Option.bind_eq_bind, Option.bind_some]
  rcases hindex with ⟨rfl, hnil⟩ | ⟨c, hc, hne⟩
  · rw [if_pos (h.outs_length.trans_lt hstems)]
    exact ⟨m, nil, rfl, h, rfl, fun _ => hnil, fun hne => absurd rfl hne, fun _ _ => rfl⟩
  · have hlt := (List.getElem?_eq_some_iff.mp hc).1
    obtain ⟨usage, husage, hvalid⟩ := h.assign hnone hc
    rw [if_neg (Nat.not_lt.mpr hlt.le), husage, hc]
    refine ⟨_, c, rfl, hvalid, rfl, fun heq => absurd heq hne, fun _ => ⟨index, ?_, hc⟩, fun s hs => ?_⟩
    · rw [OrderedMap.find?_assign, if_pos rfl]
    · exact (OrderedMap.find?_assign _ _ _ _).trans (if_neg hs)

theorem assignStem_erase (rand : ℕ) (source : Uuid) (usage : List ℕ) (m' : ConnectionMap Uuid) :
    m.assignStem nil rand source usage m' =
      ConnectionMap.assignStem nil { m with inMapping := m.inMapping.erase source, usageCount := usage } rand source usage m' := by
  simp only [ConnectionMap.assignStem, OrderedMap.erase_assign_eq_assign Function.injective_id]

theorem Valid.getStem (h : Valid nil stems m) (hstems : stems < sizeMax) (rand : ℕ) (source : Uuid) :
    ∃ m' out, m.getStem nil rand source = some (m', out) ∧ Stem nil stems m source m' out ∧
      ∀ index c, m.inMapping.find? source = some index → m.outMapping[index]? = some c → c ≠ nil → m' = m ∧ out = c := by
  rw [ConnectionMap.getStem]
  cases hfound : m.inMapping.find? source with
  | none =>
    obtain ⟨m', out, hassign, hstem⟩ := h.assignStem hstems rand hfound
    exact ⟨m', out, hassign, hstem, fun index c hindex => by cases hindex⟩
  | some index =>
    obtain ⟨c, hc⟩ : ∃ c, m.outMapping[index]? = some c := by
      have hmem := (OrderedMap.mem_entries_iff Function.injective_id m.inMapping source index).mpr hfound
      exact ⟨_, List.getElem?_eq_getElem (h.mapped _ hmem)⟩
    dsimp only
    rw [hc, Option.bind_eq_bind, Option.bind_some]
    by_cases hnil : c = nil
    · obtain ⟨usage, husage, hvalid⟩ := h.forget hfound
      have hforgotten : (m.inMapping.erase source).find? source = none := (OrderedMap.find?_erase _ _ _).trans (if_pos rfl)
      obtain ⟨m', out, hassign, hstem⟩ := hvalid.assignStem hstems rand hforgotten
      rw [if_pos hnil, husage, Option.bind_eq_bind, Option.bind_some, assignStem_erase]
      refine ⟨m', out, hassign, ⟨hstem.valid, hstem.outs, hstem.none, hstem.found, fun s hs => ?_⟩, ?_⟩
      · rw [hstem.others s hs]
        exact (OrderedMap.find?_erase _ _ _).trans (if_neg hs)
      · rintro _ _ ⟨⟩ hc' hne
        rw [hc, Option.some_inj] at hc'
        exact absurd (hc' ▸ hnil) hne
    · rw [if_neg hnil]
      refine ⟨m, c, rfl, ⟨h, rfl, fun heq => absurd heq hnil, fun _ => ⟨index, hfound, hc⟩, fun _ _ => rfl⟩, ?_⟩
      rintro _ _ ⟨⟩ hc' -
      rw [hc, Option.some_inj] at hc'
      exact ⟨rfl, hc'⟩

end

section

variable {nil} {stems : ℕ} {m : ConnectionMap Uuid}

def Operation.Distinct (nil : Uuid) : Operation Uuid → Prop
  | .update current _ => current.Nodup ∧ nil ∉ current
  | .getStem _ _ => True

def Operation.Has (c : Uuid) : Operation Uuid → Prop
  | .update current _ => c ∈ current
  | .getStem _ _ => True

def Uses (m : ConnectionMap Uuid) (source c : Uuid) : Prop :=
  ∃ index, m.inMapping.find? source = some index ∧ m.outMapping[index]? = some c

theorem Valid.step (h : Valid nil stems m) (hstems : stems < sizeMax) {op : Operation Uuid} (hop : op.Distinct nil) :
    ∃ m', step nil m op = some m' ∧ Valid nil stems m' ∧
      ∀ source c, c ≠ nil → op.Has c → Uses m source c → Uses m' source c := by
  cases op with
  | update current rand =>
    obtain ⟨m', changed, hupdate, hvalid, hin, hkept⟩ := h.update rand hop.1 hop.2
    refine ⟨m', by rw [Dandelionpp.step, hupdate]; rfl, hvalid, ?_⟩
    rintro source c - hhas ⟨index, hindex, hc⟩
    exact ⟨index, hin ▸ hindex, hkept index c hc hhas⟩
  | getStem source rand =>
    obtain ⟨m', out, hstem, hspec, hsame⟩ := h.getStem hstems rand source
    refine ⟨m', by rw [Dandelionpp.step, hstem]; rfl, hspec.valid, ?_⟩
    rintro source' c hne - ⟨index, hindex, hc⟩
    by_cases hsource : source' = source
    · subst hsource
      rw [(hsame index c hindex hc hne).1]
      exact ⟨index, hindex, hc⟩
    · exact ⟨index, (hspec.others source' hsource).trans hindex, hspec.outs ▸ hc⟩

theorem Valid.run (h : Valid nil stems m) (hstems : stems < sizeMax) {ops : List (Operation Uuid)}
    (hops : ∀ op ∈ ops, op.Distinct nil) : ∃ m', run nil ops m = some m' ∧ Valid nil stems m' :=
  Effects.exists_foldlM h fun t op hop ht => by
    obtain ⟨t', hstep, hvalid, -⟩ := ht.step hstems (hops op hop)
    exact ⟨t', hstep, hvalid⟩

theorem Valid.run_uses (h : Valid nil stems m) (hstems : stems < sizeMax) {ops : List (Operation Uuid)} {source c : Uuid}
    (hne : c ≠ nil) (huses : Uses m source c) (hops : ∀ op ∈ ops, op.Distinct nil ∧ op.Has c) :
    ∃ m', Dandelionpp.run nil ops m = some m' ∧ Valid nil stems m' ∧ Uses m' source c :=
  Effects.exists_foldlM (P := fun m => Valid nil stems m ∧ Uses m source c) ⟨h, huses⟩ fun t op hop ht => by
    obtain ⟨t', hstep, hvalid, hkept⟩ := ht.1.step hstems (hops op hop).1
    exact ⟨t', hstep, hvalid, hkept source c hne (hops op hop).2 ht.2⟩

theorem valid_construct (s : Shuffle Uuid) (rand : ℕ → ℕ) {outs : List Uuid} (hnodup : outs.Nodup) (hstems : stems < sizeMax) :
    ∃ m, ConnectionMap.construct s rand outs stems = some m ∧ Valid nil stems m := by
  -- no source is mapped yet
  have hvalid : ∀ outs' : List Uuid, outs'.Nodup → outs'.length ≤ stems →
      Valid nil stems ⟨outs', ∅, List.replicate stems 0⟩ := by
    intro outs' hnodup' hlength
    refine ⟨List.length_replicate, hlength, hnodup'.filter _, fun x hx => absurd hx List.not_mem_nil, fun i hi => ?_⟩
    exact List.getElem?_replicate_of_lt hi
  rw [ConnectionMap.construct, if_neg hstems.ne]
  split_ifs with hlength
  · obtain ⟨outs', hrun, hperm⟩ := @Effects.exists_foldlM _ _ (List.range stems)
      (fun outs i => swapAt outs i (i + rand i % (outs.length - i))) outs (fun outs' => outs'.Perm outs) (.refl _)
      fun t i hi ht => by
        rw [List.mem_range] at hi
        have hlt : i < t.length := hi.trans (ht.length_eq ▸ hlength)
        have hpick : i + rand i % (t.length - i) < t.length := by
          have hmod := Nat.mod_lt (rand i) (Nat.sub_pos_of_lt hlt)
          omega
        obtain ⟨t', hswap, hperm⟩ := exists_swapAt hlt hpick
        exact ⟨t', hswap, hperm.trans ht⟩
    rw [hrun]
    refine ⟨_, rfl, hvalid _ ((hperm.nodup_iff.mpr hnodup).sublist (List.take_sublist _ _)) ?_⟩
    rw [List.length_take]
    exact Nat.min_le_left _ _
  · refine ⟨_, rfl, hvalid _ ((s.perm outs).nodup_iff.mpr hnodup) ?_⟩
    rw [(s.perm outs).length_eq]
    exact Nat.not_lt.mp hlength

theorem connectionMap_run (nil : Uuid) (s : Shuffle Uuid) (rand : ℕ → ℕ) (outs : List Uuid) (stems : ℕ)
    (ops : List (Operation Uuid)) (houts : outs.Nodup ∧ nil ∉ outs) (hstems : stems < sizeMax)
    (hops : ∀ op ∈ ops, op.Distinct nil) :
    ∃ m, (ConnectionMap.construct s rand outs stems).bind (run nil ops) = some m ∧ Valid nil stems m ∧
      ∀ source r, ∃ m' out, m.getStem nil r source = some (m', out) ∧ (out = nil → ∀ c ∈ m.outMapping, c = nil) ∧
        ∀ later : List (Operation Uuid), out ≠ nil → (∀ op ∈ later, op.Distinct nil ∧ op.Has out) → ∀ r',
          ∃ m'', (run nil later m').bind (fun m => m.getStem nil r' source) = some (m'', out) := by
  obtain ⟨m₀, hconstruct, hvalid₀⟩ := @valid_construct _ _ nil stems s rand outs houts.1 hstems
  obtain ⟨m, hrun, hvalid⟩ := hvalid₀.run hstems hops
  refine ⟨m, by rw [hconstruct, Option.bind_some, hrun], hvalid, fun source r => ?_⟩
  obtain ⟨m', out, hget, hstem, -⟩ := hvalid.getStem hstems r source
  refine ⟨m', out, hget, hstem.none, fun later hne hlater r' => ?_⟩
  obtain ⟨index, hindex, hout⟩ := hstem.found hne
  obtain ⟨m₁, hrun₁, hvalid₁, index₁, hindex₁, hout₁⟩ :=
    hstem.valid.run_uses hstems hne ⟨index, hindex, hstem.outs ▸ hout⟩ hlater
  obtain ⟨m₂, out₂, hget₂, -, hsame⟩ := hvalid₁.getStem hstems r' source
  refine ⟨m₂, ?_⟩
  rw [hrun₁, Option.bind_some, hget₂, (hsame index₁ out hindex₁ hout₁ hne).2]

theorem connectionMap_run_replaced : ∃ m, (ConnectionMap.construct ⟨id, fun _ => .refl _⟩ (fun _ => 0) [1, 2, 3] 2).bind
    (run 0 [.getStem 9 0, .update [2, 3, 4] fun _ => 0]) = some m ∧ Valid 0 2 m := by
  obtain ⟨m, hrun, hvalid, -⟩ := connectionMap_run 0 ⟨id, fun _ => .refl _⟩ (fun _ => 0) [1, 2, 3] 2
    [.getStem 9 0, .update [2, 3, 4] fun _ => 0] (by decide) (by decide) (List.forall_mem_cons.mpr ⟨trivial,
      List.forall_mem_singleton.mpr ⟨by decide, by decide⟩⟩)
  exact ⟨m, hrun, hvalid⟩

end

end Velkavo.Net.Dandelionpp
