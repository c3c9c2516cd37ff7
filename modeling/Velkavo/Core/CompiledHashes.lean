import Velkavo.Cryptonote.Basic

namespace Velkavo.Core

open ByteCodec Velkavo.Cryptonote

def hashOfHashesStep : ℕ := 512

structure HashArea where
  hashOfHashes : List (Hash × Hash)
  hashCheck : List (Hash × UInt64)
  hashOfHashes_lt : hashOfHashes.length < 2 ^ 32
  hashCheck_length : hashCheck = [] ∨ hashCheck.length = hashOfHashes.length * hashOfHashesStep

namespace HashArea

def load (groups : List (Hash × Hash)) (h : groups.length < 2 ^ 32) : HashArea where
  hashOfHashes := groups
  hashCheck := List.replicate (groups.length * hashOfHashesStep) (nullHash, 0)
  hashOfHashes_lt := h
  hashCheck_length := Or.inr List.length_replicate

def dump (a : HashArea) (dbHeight : ℕ) : HashArea :=
  if a.hashCheck ≠ [] ∧ a.hashCheck.length + 4096 < dbHeight then
    { a with hashCheck := [], hashCheck_length := Or.inl rfl }
  else a

def write (a : HashArea) (i : ℕ) (f : Hash × UInt64 → Hash × UInt64) : HashArea where
  hashOfHashes := a.hashOfHashes
  hashCheck := a.hashCheck.modify i f
  hashOfHashes_lt := a.hashOfHashes_lt
  hashCheck_length := by
    rcases a.hashCheck_length with h | h
    · exact Or.inl (by rw [h, List.modify_nil])
    · exact Or.inr (by rw [List.length_modify, h])

end HashArea

/-- Consecutive block hashes, and the weights of the blocks or none. The bound is that of a vector of hashes. -/
structure ChainEntry where
  hashes : List Hash
  weights : List UInt64
  length_hashes : hashes.length < 2 ^ 58

def ChainEntry.blocks (c : ChainEntry) : List (Hash × UInt64) :=
  if c.weights = [] then c.hashes.map fun h => (h, 0) else c.hashes.zip c.weights

variable (cnFastHash : Bytes → Hash)

def groupValid (weighed : Bool) (expected : Hash × Hash) (group : List (Hash × UInt64)) : Bool :=
  cnFastHash (group.flatMap fun b => b.1.bytes) = expected.1 &&
    (!weighed || cnFastHash (group.flatMap fun b => littleEndian 8 b.2.toNat) = expected.2)

def enterGroup (weighed : Bool) : List (Hash × UInt64) → ℕ → HashArea → Option (HashArea × Bool)
  | [], _, a => some (a, true)
  | b :: rest, i, a => do
    let known ← a.hashCheck[i]?
    if known.1 ≠ nullHash ∧ known.1 ≠ b.1 then some (a, false)
    else
      let a := a.write i fun e => (b.1, e.2)
      if weighed then
        if known.2 ≠ 0 ∧ known.2 ≠ b.2 then some (a, false)
        else enterGroup weighed rest (i + 1) (a.write i fun e => (e.1, b.2))
      else enterGroup weighed rest (i + 1) a

def checkGroups (weighed : Bool) (size first : ℕ) (data : List (Hash × UInt64)) :
    ℕ → ℕ → ℕ → HashArea → Option (HashArea × Option ℕ)
  | 0, _, usable, a => some (a, some usable)
  | k + 1, n, usable, a =>
    match a.hashOfHashes[n]? with
    | some expected =>
      let group := (data.drop ((n - first) * hashOfHashesStep)).take hashOfHashesStep
      -- if the last index isn't fully filled, we can't tell if valid
      if data.length < (n - first) * hashOfHashesStep + hashOfHashesStep then some (a, some usable)
      else if !groupValid cnFastHash weighed expected group then some (a, some usable)
      else
        match enterGroup weighed group (n * hashOfHashesStep) a with
        | none => none
        | some (a, false) => some (a, none)
        | some (a, true) =>
          checkGroups weighed size first data k (n + 1) ((usable + hashOfHashesStep) % 2 ^ 64) a
    | none =>
      -- after the end of the precomputed blocks, accept anything
      let usable := (usable + hashOfHashesStep) % 2 ^ 64
      checkGroups weighed size first data k (n + 1) (if size < usable then size else usable) a

def firstGroup (db : List (Hash × UInt64)) (height : ℕ) : ℕ :=
  if db.length < height ∧ height % hashOfHashesStep ≠ 0 then height / hashOfHashesStep + 1
  else height / hashOfHashesStep

def gatherBlocks (db : List (Hash × UInt64)) (height : ℕ) (c : ChainEntry) : Option (List (Hash × UInt64)) :=
  if db.length < height ∧ height % hashOfHashesStep ≠ 0 then
    some (c.blocks.drop (hashOfHashesStep - height % hashOfHashesStep))
  else do
    let start := height / hashOfHashesStep * hashOfHashesStep
    let known ← (List.range' start (height - start)).mapM fun h => db[h]?
    some (known ++ c.blocks)

/-- There is no result where the code would read a block the chain does not have, or past the end of a vector. -/
def prevalidateBlockHashes (a : HashArea) (db : List (Hash × UInt64)) (height : ℕ) (c : ChainEntry) :
    Option (HashArea × ℕ) :=
  let size := c.hashes.length
  if c.weights ≠ [] ∧ c.weights.length ≠ size then some (a, 0)
  else if a.hashOfHashes.length * hashOfHashesStep ≤ height then some (a, size)
  -- if we're getting old blocks, we might have jettisoned the hashes already
  else if a.hashCheck = [] then some (a, size)
  else
    let lastIndex := (height + size + 2 ^ 64 - 1) % 2 ^ 64 / hashOfHashesStep
    -- case of not enough to calculate even a single hash
    if height / hashOfHashesStep = lastIndex ∧ size < hashOfHashesStep ∧ (height + size) % hashOfHashesStep ≠ 0 then
      some (a, size)
    else do
      let first := firstGroup db height
      let data ← gatherBlocks db height c
      -- the count may start negative
      let usable := (first * hashOfHashesStep + 2 ^ 64 - height) % 2 ^ 64
      let (a, counted) ←
        checkGroups cnFastHash (c.weights ≠ []) size first data (lastIndex + 1 - first) first usable a
      match counted with
      | none => some (a, 0)
      | some usable => some (a, if usable < (2 ^ 64 - 1) / 2 then usable else 0)

section

variable (db : List (Hash × UInt64)) (height : ℕ) (c : ChainEntry)

def chainBlockAt (h : ℕ) : Hash × UInt64 :=
  if h < height then db.getD h (nullHash, 0) else c.blocks.getD (h - height) (nullHash, 0)

def groupAt (g : ℕ) : List (Hash × UInt64) :=
  (List.range' (g * hashOfHashesStep) hashOfHashesStep).map (chainBlockAt db height c)

def Covered (g : ℕ) : Prop :=
  height / hashOfHashesStep ≤ g ∧ (g + 1) * hashOfHashesStep ≤ height + c.hashes.length ∧
    (height ≤ db.length ∨ height ≤ g * hashOfHashesStep)

def GroupMatches (groups : List (Hash × Hash)) (g : ℕ) : Prop :=
  ∃ expected, groups[g]? = some expected ∧
    groupValid cnFastHash (c.weights ≠ []) expected (groupAt db height c g) = true

structure Entered (allowed : ℕ → Option Hash → Prop) (a a' : HashArea) : Prop where
  hashOfHashes_eq : a'.hashOfHashes = a.hashOfHashes
  length_eq : a'.hashCheck.length = a.hashCheck.length
  entry : ∀ i, a'.hashCheck[i]? = a.hashCheck[i]? ∨ allowed i (a'.hashCheck[i]?.map Prod.fst)

def OfMatching (groups : List (Hash × Hash)) (i : ℕ) (hash : Option Hash) : Prop :=
  Covered db height c (i / hashOfHashesStep) ∧
    GroupMatches cnFastHash db height c groups (i / hashOfHashesStep) ∧ hash = some (chainBlockAt db height c i).1

structure GroupProgress (groups : List (Hash × Hash)) (n usable : ℕ) : Prop where
  matched : ∀ g < groups.length, Covered db height c g → g < n → GroupMatches cnFastHash db height c groups g
  count : usable = (n * hashOfHashesStep + 2 ^ 64 - height) % 2 ^ 64 ∧
      n * hashOfHashesStep ≤ height + c.hashes.length ∨
    groups.length ≤ n ∧ usable ≤ c.hashes.length

def CountSound (groups : List (Hash × Hash)) (count : ℕ) : Prop :=
  count ≤ c.hashes.length ∧
    ∀ g < groups.length, Covered db height c g → ¬ GroupMatches cnFastHash db height c groups g →
      ∀ i < count, height + i < g * hashOfHashesStep

def EndsSound (groups : List (Hash × Hash)) (a : HashArea) (r : Option (HashArea × Option ℕ)) : Prop :=
  ∃ a' counted, r = some (a', counted) ∧ Entered (OfMatching cnFastHash db height c groups) a a' ∧
    ∀ count, counted = some count →
      CountSound cnFastHash db height c groups (if count < (2 ^ 64 - 1) / 2 then count else 0)

end

section

variable {db : List (Hash × UInt64)} {height : ℕ} {c : ChainEntry}

theorem length_blocks (hw : ¬ (c.weights ≠ [] ∧ c.weights.length ≠ c.hashes.length)) :
    c.blocks.length = c.hashes.length := by
  unfold ChainEntry.blocks
  split_ifs with h
  · exact List.length_map _
  · have hlen : c.weights.length = c.hashes.length := by
      by_contra hne
      exact hw ⟨h, hne⟩
    rw [List.length_zip, hlen, min_self]

theorem drop_blocks_eq (db : List (Hash × UInt64)) (height k : ℕ) :
    c.blocks.drop k = (List.range' (height + k) (c.blocks.length - k)).map (chainBlockAt db height c) := by
  apply List.ext_getElem
  · rw [List.length_drop, List.length_map, List.length_range']
  · intro i h₁ h₂
    have hi : k + i < c.blocks.length := by
      rw [List.length_drop] at h₁
      omega
    rw [List.getElem_drop, List.getElem_map, List.getElem_range', chainBlockAt, if_neg (by omega),
      show height + k + 1 * i - height = k + i by omega, List.getD_eq_getElem _ _ hi]

theorem mapM_db_eq {start k : ℕ} (hk : start + k ≤ height) (hdb : height ≤ db.length) :
    ((List.range' start k).mapM fun h => db[h]?) = some ((List.range' start k).map (chainBlockAt db height c)) := by
  induction k generalizing start with
  | zero => rfl
  | succ k ih =>
    have hlt : start < db.length := by omega
    rw [List.range'_succ, List.mapM_cons, ih (by omega), List.getElem?_eq_getElem hlt, List.map_cons, chainBlockAt,
      if_pos (by omega), List.getD_eq_getElem _ _ hlt]
    rfl

theorem gatherBlocks_eq (hw : ¬ (c.weights ≠ [] ∧ c.weights.length ≠ c.hashes.length))
    (hreach : firstGroup db height * hashOfHashesStep ≤ height + c.hashes.length) :
    gatherBlocks db height c =
      some ((List.range' (firstGroup db height * hashOfHashesStep)
        (height + c.hashes.length - firstGroup db height * hashOfHashesStep)).map (chainBlockAt db height c)) := by
  have hlen := length_blocks hw
  unfold gatherBlocks
  by_cases hskip : db.length < height ∧ height % hashOfHashesStep ≠ 0
  · have hfirst : firstGroup db height = height / hashOfHashesStep + 1 := if_pos hskip
    rw [if_pos hskip, drop_blocks_eq db height, hlen, hfirst]
    rw [hfirst] at hreach
    unfold hashOfHashesStep at hreach ⊢
    congr 3 <;> omega
  · have hfirst : firstGroup db height = height / hashOfHashesStep := if_neg hskip
    have hstart : height / hashOfHashesStep * hashOfHashesStep ≤ height := Nat.div_mul_le_self _ _
    have hknown : ((List.range' (height / hashOfHashesStep * hashOfHashesStep)
        (height - height / hashOfHashesStep * hashOfHashesStep)).mapM fun h => db[h]?) =
        some ((List.range' (height / hashOfHashesStep * hashOfHashesStep)
          (height - height / hashOfHashesStep * hashOfHashesStep)).map (chainBlockAt db height c)) := by
      by_cases hdb : height ≤ db.length
      · exact mapM_db_eq (by omega) hdb
      · -- a height off the chain is the start of a group, and nothing is read
        have hmod : height % hashOfHashesStep = 0 := by
          by_contra hne
          exact hskip ⟨by omega, hne⟩
        have hzero : height - height / hashOfHashesStep * hashOfHashesStep = 0 := by
          have := Nat.div_add_mod' height hashOfHashesStep
          omega
        rw [hzero]
        rfl
    have hsent := drop_blocks_eq (c := c) db height 0
    rw [List.drop_zero, Nat.add_zero, Nat.sub_zero, hlen] at hsent
    rw [if_neg hskip, hfirst]
    change Option.bind _ (fun known => some (known ++ c.blocks)) = _
    rw [hknown, Option.bind_some, hsent, ← List.map_append, Nat.sub_add_comm hstart]
    congr 2
    have happend := List.range'_append_1 (s := height / hashOfHashesStep * hashOfHashesStep)
      (m := height - height / hashOfHashesStep * hashOfHashesStep) (n := c.hashes.length)
    rwa [Nat.add_sub_cancel' hstart] at happend

theorem group_eq {first n : ℕ} (hn : first ≤ n) (hend : (n + 1) * hashOfHashesStep ≤ height + c.hashes.length) :
    (((List.range' (first * hashOfHashesStep) (height + c.hashes.length - first * hashOfHashesStep)).map
      (chainBlockAt db height c)).drop ((n - first) * hashOfHashesStep)).take hashOfHashesStep = groupAt db height c n := by
  have hmul : n * hashOfHashesStep = first * hashOfHashesStep + (n - first) * hashOfHashesStep := by
    rw [← Nat.add_mul, Nat.add_sub_cancel' hn]
  rw [Nat.add_mul] at hend
  rw [← List.map_drop, ← List.map_take, List.drop_range', List.take_range'_of_length_ge (by omega), Nat.mul_one,
    ← hmul, groupAt]

theorem covered_of_firstGroup_le {n : ℕ} (hn : firstGroup db height ≤ n)
    (hend : (n + 1) * hashOfHashesStep ≤ height + c.hashes.length) : Covered db height c n := by
  unfold firstGroup at hn
  unfold Covered
  unfold hashOfHashesStep at *
  split_ifs at hn <;> omega

end

section

variable {allowed allowed' : ℕ → Option Hash → Prop} {a a' a'' : HashArea}

theorem Entered.refl (a : HashArea) : Entered allowed a a := ⟨rfl, rfl, fun _ => Or.inl rfl⟩

theorem Entered.trans (h : Entered allowed a a') (h' : Entered allowed a' a'') : Entered allowed a a'' := by
  refine ⟨h'.hashOfHashes_eq.trans h.hashOfHashes_eq, h'.length_eq.trans h.length_eq, fun i => ?_⟩
  rcases h'.entry i with hi | hi
  · rw [hi]
    exact h.entry i
  · exact Or.inr hi

theorem Entered.mono (h : Entered allowed a a') (hallowed : ∀ i hash, allowed i hash → allowed' i hash) :
    Entered allowed' a a' :=
  ⟨h.hashOfHashes_eq, h.length_eq, fun i => (h.entry i).imp_right (hallowed i _)⟩

theorem entered_write {i : ℕ} {f : Hash × UInt64 → Hash × UInt64}
    (hf : allowed i ((a.hashCheck[i]?.map f).map Prod.fst)) : Entered allowed a (a.write i f) := by
  refine ⟨rfl, List.length_modify _ _ _, fun j => ?_⟩
  by_cases hj : i = j
  · subst hj
    refine Or.inr ?_
    change allowed i ((a.hashCheck.modify i f)[i]?.map Prod.fst)
    rwa [List.getElem?_modify_eq]
  · exact Or.inl (List.getElem?_modify_ne _ _ hj)

def BlockOf (l : List (Hash × UInt64)) (i j : ℕ) (hash : Option Hash) : Prop :=
  i ≤ j ∧ ∃ b, l[j - i]? = some b ∧ hash = some b.1

theorem blockOf_cons {l : List (Hash × UInt64)} {i j : ℕ} {hash : Option Hash} (b : Hash × UInt64)
    (h : BlockOf l (i + 1) j hash) : BlockOf (b :: l) i j hash := by
  obtain ⟨hj, b', hb', hhash⟩ := h
  refine ⟨by omega, b', ?_, hhash⟩
  rw [show j - i = j - (i + 1) + 1 by omega, List.getElem?_cons_succ, hb']

theorem enterGroup_spec (weighed : Bool) (l : List (Hash × UInt64)) {i : ℕ} {a : HashArea}
    (h : i + l.length ≤ a.hashCheck.length) :
    ∃ a' ok, enterGroup weighed l i a = some (a', ok) ∧ Entered (BlockOf l i) a a' := by
  induction l generalizing i a with
  | nil => exact ⟨a, true, rfl, Entered.refl _⟩
  | cons b rest ih =>
    rw [List.length_cons] at h
    have hi : i < a.hashCheck.length := by omega
    have hread := List.getElem?_eq_getElem hi
    have hblock : BlockOf (b :: rest) i i (some b.1) :=
      ⟨le_rfl, b, by rw [Nat.sub_self, List.getElem?_cons_zero], rfl⟩
    have hhash : Entered (BlockOf (b :: rest) i) a (a.write i fun e => (b.1, e.2)) := by
      apply entered_write
      rwa [hread]
    have hfst : (a.write i fun e => (b.1, e.2)).hashCheck[i]?.map Prod.fst = some b.1 := by
      change (a.hashCheck.modify i _)[i]?.map Prod.fst = _
      rw [List.getElem?_modify_eq, hread]
      rfl
    rw [enterGroup, hread, Option.bind_eq_bind, Option.bind_some]
    by_cases hknown : a.hashCheck[i].1 ≠ nullHash ∧ a.hashCheck[i].1 ≠ b.1
    · exact ⟨a, false, by rw [if_pos hknown], Entered.refl _⟩
    rw [if_neg hknown]
    generalize a.write i (fun e => (b.1, e.2)) = a₁ at hhash hfst ⊢
    have hi₁ : i + 1 + rest.length ≤ a₁.hashCheck.length := by rw [hhash.length_eq]; omega
    cases weighed with
    | false =>
      obtain ⟨a', ok, he, hrest⟩ := ih hi₁
      exact ⟨a', ok, he, hhash.trans (hrest.mono fun j hash => blockOf_cons b)⟩
    | true =>
      by_cases hweight : a.hashCheck[i].2 ≠ 0 ∧ a.hashCheck[i].2 ≠ b.2
      · exact ⟨_, false, by rw [if_pos rfl, if_pos hweight], hhash⟩
      · have hboth : Entered (BlockOf (b :: rest) i) a₁ (a₁.write i fun e => (e.1, b.2)) := by
          apply entered_write
          rw [Option.map_map]
          exact hfst ▸ hblock
        obtain ⟨a', ok, he, hrest⟩ := ih (hboth.length_eq ▸ hi₁)
        exact ⟨a', ok, by rw [if_pos rfl, if_neg hweight, he],
          (hhash.trans hboth).trans (hrest.mono fun j hash => blockOf_cons b)⟩

end

section

variable {db : List (Hash × UInt64)} {height : ℕ} {c : ChainEntry} {groups : List (Hash × Hash)}

theorem GroupProgress.countSound {n usable : ℕ} (hheight : height < 2 ^ 32 * hashOfHashesStep)
    (h : GroupProgress cnFastHash db height c groups n usable) :
    CountSound cnFastHash db height c groups (if usable < (2 ^ 64 - 1) / 2 then usable else 0) := by
  have hsize := c.length_hashes
  have hcount := h.count
  constructor
  · unfold hashOfHashesStep at *
    split_ifs <;> omega
  · intro g hg hcovered hmismatch i hi
    have hn : n ≤ g := by
      by_contra hlt
      exact hmismatch (h.matched g hg hcovered (by omega))
    unfold hashOfHashesStep at *
    split_ifs at hi <;> omega

theorem GroupProgress.next {n usable : ℕ} (h : GroupProgress cnFastHash db height c groups n usable)
    (hheight : height < 2 ^ 32 * hashOfHashesStep) (hn : n < groups.length)
    (hend : (n + 1) * hashOfHashesStep ≤ height + c.hashes.length)
    (hmatch : GroupMatches cnFastHash db height c groups n) :
    GroupProgress cnFastHash db height c groups (n + 1) ((usable + hashOfHashesStep) % 2 ^ 64) := by
  refine ⟨fun g hg hcovered hlt => ?_, Or.inl ⟨?_, hend⟩⟩
  · rcases Nat.lt_succ_iff_lt_or_eq.mp hlt with hlt | rfl
    · exact h.matched g hg hcovered hlt
    · exact hmatch
  · have hcount := h.count
    unfold hashOfHashesStep at *
    omega

theorem GroupProgress.pastTable {n usable : ℕ} (h : GroupProgress cnFastHash db height c groups n usable)
    (hn : groups.length ≤ n) (usable' : ℕ) :
    GroupProgress cnFastHash db height c groups (n + 1)
      (if c.hashes.length < usable' then c.hashes.length else usable') := by
  refine ⟨fun g hg hcovered _ => h.matched g hg hcovered (by omega), Or.inr ⟨by omega, ?_⟩⟩
  split_ifs <;> omega

theorem ofMatching_of_blockOf {n i : ℕ} {hash : Option Hash} (hcovered : Covered db height c n)
    (hmatch : GroupMatches cnFastHash db height c groups n)
    (h : BlockOf (groupAt db height c n) (n * hashOfHashesStep) i hash) :
    OfMatching cnFastHash db height c groups i hash := by
  obtain ⟨hi, b, hb, rfl⟩ := h
  have hlt : i - n * hashOfHashesStep < hashOfHashesStep := by
    have := (List.getElem?_eq_some_iff.mp hb).1
    rwa [groupAt, List.length_map, List.length_range'] at this
  have hdiv : i / hashOfHashesStep = n := by
    unfold hashOfHashesStep at *
    omega
  rw [groupAt, List.getElem?_map, List.getElem?_range' hlt, Nat.one_mul, Nat.add_sub_cancel' hi] at hb
  rw [OfMatching, hdiv]
  exact ⟨hcovered, hmatch, congrArg (fun b => some (Prod.fst b)) (Option.some.inj hb).symm⟩

theorem checkGroups_spec {data : List (Hash × UInt64)}
    (hdata : data = (List.range' (firstGroup db height * hashOfHashesStep)
      (height + c.hashes.length - firstGroup db height * hashOfHashesStep)).map (chainBlockAt db height c))
    (hheight : height < 2 ^ 32 * hashOfHashesStep) (k : ℕ) {n usable : ℕ} {a : HashArea}
    (hn : firstGroup db height ≤ n) (ha : a.hashOfHashes = groups)
    (hcheck : a.hashCheck.length = groups.length * hashOfHashesStep)
    (hprogress : GroupProgress cnFastHash db height c groups n usable) :
    EndsSound cnFastHash db height c groups a
      (checkGroups cnFastHash (c.weights ≠ []) c.hashes.length (firstGroup db height) data k n usable a) := by
  induction k generalizing n usable a with
  | zero =>
    refine ⟨a, some usable, rfl, Entered.refl _, ?_⟩
    rintro _ ⟨⟩
    exact hprogress.countSound _ hheight
  | succ k ih =>
    have hstop : EndsSound cnFastHash db height c groups a (some (a, some usable)) := by
      refine ⟨a, some usable, rfl, Entered.refl _, ?_⟩
      rintro _ ⟨⟩
      exact hprogress.countSound _ hheight
    rw [checkGroups, ha]
    cases hg : groups[n]? with
    | none =>
      have hpast : groups.length ≤ n := List.getElem?_eq_none_iff.mp hg
      exact ih (by omega) ha hcheck (hprogress.pastTable _ hpast _)
    | some expected =>
      have hlt : n < groups.length := (List.getElem?_eq_some_iff.mp hg).1
      dsimp only
      by_cases hfilled : data.length < (n - firstGroup db height) * hashOfHashesStep + hashOfHashesStep
      · rwa [if_pos hfilled]
      have hend : (n + 1) * hashOfHashesStep ≤ height + c.hashes.length := by
        rw [hdata, List.length_map, List.length_range'] at hfilled
        unfold hashOfHashesStep at *
        omega
      rw [if_neg hfilled, hdata, group_eq hn hend]
      by_cases hvalid : groupValid cnFastHash (c.weights ≠ []) expected (groupAt db height c n) = true
      · have hmatch : GroupMatches cnFastHash db height c groups n := ⟨expected, hg, hvalid⟩
        have hcovered := covered_of_firstGroup_le hn hend
        have hroom : n * hashOfHashesStep + (groupAt db height c n).length ≤ a.hashCheck.length := by
          rw [groupAt, List.length_map, List.length_range', hcheck, ← Nat.succ_mul]
          exact Nat.mul_le_mul_right _ hlt
        obtain ⟨a', ok, he, hentered⟩ := enterGroup_spec (c.weights ≠ []) (groupAt db height c n) hroom
        have hentered' := hentered.mono fun i hash => ofMatching_of_blockOf cnFastHash hcovered hmatch
        rw [hvalid, Bool.not_true, if_neg Bool.false_ne_true, he]
        cases ok with
        | false => exact ⟨a', none, rfl, hentered', by rintro _ ⟨⟩⟩
        | true =>
          obtain ⟨a'', counted, hloop, hrest, hcount⟩ := ih (by omega) (hentered.hashOfHashes_eq.trans ha)
            (hentered.length_eq.trans hcheck) (hprogress.next _ hheight hlt hend hmatch)
          exact ⟨a'', counted, hdata ▸ hloop, hentered'.trans hrest, hcount⟩
      · rw [Bool.not_eq_true] at hvalid
        rwa [hvalid, Bool.not_false, if_pos rfl]

theorem firstGroup_le_of_covered {g : ℕ} (h : Covered db height c g) : firstGroup db height ≤ g := by
  obtain ⟨hle, _, hstart⟩ := h
  unfold firstGroup
  unfold hashOfHashesStep at *
  split_ifs <;> omega

theorem firstGroup_mul_le (db : List (Hash × UInt64)) (hheight : height < 2 ^ 32 * hashOfHashesStep)
    (hshort : ¬ (height / hashOfHashesStep = (height + c.hashes.length + 2 ^ 64 - 1) % 2 ^ 64 / hashOfHashesStep ∧
      c.hashes.length < hashOfHashesStep ∧ (height + c.hashes.length) % hashOfHashesStep ≠ 0)) :
    firstGroup db height * hashOfHashesStep ≤ height + c.hashes.length := by
  have hsize := c.length_hashes
  unfold firstGroup
  unfold hashOfHashesStep at *
  split_ifs <;> omega

theorem not_covered_of_short
    (hshort : height / hashOfHashesStep = (height + c.hashes.length + 2 ^ 64 - 1) % 2 ^ 64 / hashOfHashesStep ∧
      c.hashes.length < hashOfHashesStep ∧ (height + c.hashes.length) % hashOfHashesStep ≠ 0) (g : ℕ) :
    ¬ Covered db height c g := by
  rintro ⟨hle, hend, _⟩
  have hsize := c.length_hashes
  unfold hashOfHashesStep at *
  omega

end

theorem prevalidateBlockHashes_sound (a : HashArea) (db : List (Hash × UInt64)) (height : ℕ) (c : ChainEntry) :
    ∃ a' count, prevalidateBlockHashes cnFastHash a db height c = some (a', count) ∧ count ≤ c.hashes.length ∧
      (a.hashCheck ≠ [] → ∀ g < a.hashOfHashes.length, Covered db height c g →
        ¬ GroupMatches cnFastHash db height c a.hashOfHashes g → ∀ i < count, height + i < g * hashOfHashesStep) ∧
      ∀ i, a'.hashCheck[i]? ≠ a.hashCheck[i]? → OfMatching cnFastHash db height c a.hashOfHashes i
        (a'.hashCheck[i]?.map Prod.fst) := by
  unfold prevalidateBlockHashes
  dsimp only
  by_cases hweights : c.weights ≠ [] ∧ c.weights.length ≠ c.hashes.length
  · rw [if_pos hweights]
    exact ⟨a, 0, rfl, Nat.zero_le _, fun _ _ _ _ _ i hi => absurd hi (Nat.not_lt_zero i), fun i hi => absurd rfl hi⟩
  rw [if_neg hweights]
  by_cases hpast : a.hashOfHashes.length * hashOfHashesStep ≤ height
  · rw [if_pos hpast]
    refine ⟨a, _, rfl, le_rfl, fun _ g hg hcovered => ?_, fun i hi => absurd rfl hi⟩
    have hle := hcovered.1
    unfold hashOfHashesStep at *
    omega
  have hheight : height < 2 ^ 32 * hashOfHashesStep := by
    have hlt := a.hashOfHashes_lt
    unfold hashOfHashesStep at *
    omega
  rw [if_neg hpast]
  by_cases hdropped : a.hashCheck = []
  · rw [if_pos hdropped]
    exact ⟨a, _, rfl, le_rfl, fun hkept => absurd hdropped hkept, fun i hi => absurd rfl hi⟩
  rw [if_neg hdropped]
  by_cases hshort : height / hashOfHashesStep =
        (height + c.hashes.length + 2 ^ 64 - 1) % 2 ^ 64 / hashOfHashesStep ∧
      c.hashes.length < hashOfHashesStep ∧ (height + c.hashes.length) % hashOfHashesStep ≠ 0
  · rw [if_pos hshort]
    exact ⟨a, _, rfl, le_rfl, fun _ g _ hcovered => absurd hcovered (not_covered_of_short hshort g),
      fun i hi => absurd rfl hi⟩
  have hreach := firstGroup_mul_le db hheight hshort
  have hstart : GroupProgress cnFastHash db height c a.hashOfHashes (firstGroup db height)
      ((firstGroup db height * hashOfHashesStep + 2 ^ 64 - height) % 2 ^ 64) :=
    ⟨fun g _ hcovered hlt => absurd (firstGroup_le_of_covered hcovered) (by omega), Or.inl ⟨rfl, hreach⟩⟩
  obtain ⟨a', counted, hloop, hentered, hcount⟩ := checkGroups_spec cnFastHash rfl hheight
    ((height + c.hashes.length + 2 ^ 64 - 1) % 2 ^ 64 / hashOfHashesStep + 1 - firstGroup db height) le_rfl rfl
    (a.hashCheck_length.resolve_left hdropped) hstart
  rw [if_neg hshort, gatherBlocks_eq hweights hreach, Option.bind_eq_bind, Option.bind_some, hloop]
  have hwritten : ∀ i, a'.hashCheck[i]? ≠ a.hashCheck[i]? →
      OfMatching cnFastHash db height c a.hashOfHashes i (a'.hashCheck[i]?.map Prod.fst) :=
    fun i hi => (hentered.entry i).resolve_left hi
  cases counted with
  | none =>
    exact ⟨a', 0, rfl, Nat.zero_le _, fun _ _ _ _ _ i hi => absurd hi (Nat.not_lt_zero i), hwritten⟩
  | some usable =>
    obtain ⟨hle, hsound⟩ := hcount usable rfl
    exact ⟨a', _, rfl, hle, fun _ => hsound, hwritten⟩

def oneGroup : HashArea := HashArea.load [(⟨littleEndian 32 1, littleEndian_length 32 1⟩, nullHash)] (by decide)

def longChain : List (Hash × UInt64) := List.replicate 4609 (nullHash, 0)

def otherBlocks : ChainEntry := ⟨List.replicate 512 nullHash, [], by rw [List.length_replicate]; decide⟩

theorem dump_oneGroup :
    (oneGroup.dump longChain.length).hashOfHashes = oneGroup.hashOfHashes ∧
      (oneGroup.dump longChain.length).hashCheck = [] := by
  have hcheck : oneGroup.hashCheck.length = 512 := List.length_replicate
  have hdump : oneGroup.hashCheck ≠ [] ∧ oneGroup.hashCheck.length + 4096 < longChain.length := by
    refine ⟨fun h => ?_, ?_⟩
    · rw [h] at hcheck
      cases hcheck
    · rw [hcheck, longChain, List.length_replicate]
      decide
  rw [HashArea.dump, if_pos hdump]
  exact ⟨rfl, rfl⟩

theorem mismatch_counted_after_dump :
    prevalidateBlockHashes (fun _ => nullHash) (oneGroup.dump longChain.length) longChain 0 otherBlocks =
        some (oneGroup.dump longChain.length, 512) ∧
      0 < (oneGroup.dump longChain.length).hashOfHashes.length ∧ Covered longChain 0 otherBlocks 0 ∧
      ¬ GroupMatches (fun _ => nullHash) longChain 0 otherBlocks (oneGroup.dump longChain.length).hashOfHashes 0 := by
  obtain ⟨hgroups, hcheck⟩ := dump_oneGroup
  have hsize : otherBlocks.hashes.length = 512 := List.length_replicate
  refine ⟨?_, ?_, ⟨by decide, by rw [hsize]; decide, Or.inr (Nat.zero_le _)⟩, ?_⟩
  · rw [prevalidateBlockHashes, if_neg (fun h => h.1 rfl), hgroups, if_neg (by decide), if_pos hcheck, hsize]
  · rw [hgroups]
    decide
  · rw [hgroups]
    rintro ⟨expected, hexpected, hvalid⟩
    obtain rfl := Option.some.inj hexpected
    rw [groupValid, Bool.and_eq_true] at hvalid
    exact absurd (of_decide_eq_true hvalid.1) (by decide)

end Velkavo.Core
