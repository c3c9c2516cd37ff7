import Velkavo.ByteCodec.Text

/-! Word lists of seed phrases, and how a word is found in them. -/

namespace Velkavo.Mnemonics

open ByteCodec

def isContinuation (c : UInt8) : Bool := c &&& 0xc0 == 0x80

def utf8Prefix : ℕ → Bytes → Bytes
  | 0, _ => []
  | _ + 1, [] => []
  | count + 1, c :: s => c :: (s.takeWhile isContinuation ++ utf8Prefix count (s.dropWhile isContinuation))

theorem utf8Prefix_of_le {count : ℕ} {s : Bytes} (h : s.length ≤ count) : utf8Prefix count s = s := by
  induction count generalizing s with
  | zero => rw [List.length_eq_zero_iff.mp (Nat.le_zero.mp h)]; rfl
  | succ count ih =>
    cases s with
    | nil => rfl
    | cons c s =>
      have hdrop : (s.dropWhile isContinuation).length ≤ count :=
        (List.dropWhile_sublist _).length_le.trans (Nat.le_of_succ_le_succ h)
      rw [utf8Prefix, ih hdrop, List.takeWhile_append_dropWhile]

def low (c : UInt8) (bits : ℕ) : ℕ := c.toNat % 2 ^ bits

def utf8Encode (cp : ℕ) : Option Bytes :=
  if cp ≤ 0x7f then some [UInt8.ofNat cp]
  else if cp ≤ 0x7ff then some [UInt8.ofNat (0xc0 ||| cp >>> 6), UInt8.ofNat (0x80 ||| cp % 64)]
  else if cp ≤ 0xffff then
    some [UInt8.ofNat (0xe0 ||| cp >>> 12), UInt8.ofNat (0x80 ||| (cp >>> 6) % 64), UInt8.ofNat (0x80 ||| cp % 64)]
  else if cp ≤ 0x10ffff then
    some [UInt8.ofNat (0xf0 ||| cp >>> 18), UInt8.ofNat (0x80 ||| (cp >>> 12) % 64),
      UInt8.ofNat (0x80 ||| (cp >>> 6) % 64), UInt8.ofNat (0x80 ||| cp % 64)]
  else none

def utf8Canonical (t : ℕ → ℕ) : Bytes → Option Bytes
  | [] => some []
  | c :: s =>
    if c &&& 0x80 = 0 then do
      let first ← utf8Encode (t c.toNat)
      let rest ← utf8Canonical t s
      pure (first ++ rest)
    else if c &&& 0xe0 = 0xc0 then
      match s with
      | c₁ :: s => do
        let first ← utf8Encode (t (low c 5 <<< 6 ||| low c₁ 6))
        let rest ← utf8Canonical t s
        pure (first ++ rest)
      | _ => none
    else if c &&& 0xf0 = 0xe0 then
      match s with
      | c₁ :: c₂ :: s => do
        let first ← utf8Encode (t (low c 4 <<< 12 ||| low c₁ 6 <<< 6 ||| low c₂ 6))
        let rest ← utf8Canonical t s
        pure (first ++ rest)
      | _ => none
    else if c &&& 0xf8 = 0xf0 then
      match s with
      | c₁ :: c₂ :: c₃ :: s => do
        let first ← utf8Encode (t (low c 3 <<< 18 ||| low c₁ 6 <<< 12 ||| low c₂ 6 <<< 6 ||| low c₃ 6))
        let rest ← utf8Canonical t s
        pure (first ++ rest)
      | _ => none
    else none

structure Library where
  towlower : ℕ → ℕ
  crc32 : Bytes → UInt32

def Library.canonical (lib : Library) (word : Bytes) : Option Bytes := utf8Canonical lib.towlower word

def trim (uniquePrefixLength : ℕ) (word : Bytes) : Bytes :=
  if word.length > uniquePrefixLength then utf8Prefix uniquePrefixLength word else word

theorem trim_eq (uniquePrefixLength : ℕ) (word : Bytes) : trim uniquePrefixLength word = utf8Prefix uniquePrefixLength word := by
  rw [trim]
  split_ifs with h
  · rfl
  · exact (utf8Prefix_of_le (Nat.le_of_not_lt h)).symm

abbrev nwords : ℕ := 1626

structure Language (lib : Library) where
  languageName : Bytes
  englishLanguageName : Bytes
  wordList : List Bytes
  uniquePrefixLength : ℕ
  length_eq : wordList.length = nwords
  isWord : ∀ word ∈ wordList, word ≠ [] ∧ word.all (fun c => !isSpace c) = true
  isText : ∀ word ∈ wordList, (lib.canonical word).isSome = true ∧ (lib.canonical (trim uniquePrefixLength word)).isSome = true

namespace Language

variable {lib : Library} (language : Language lib)

def findBy (form : Bytes → Bytes) (key : Bytes) : Option (Bytes × ℕ) :=
  let found := language.wordList.zipIdx.filter fun x => decide (lib.canonical (form x.1) = some key)
  match found.head?, found.getLast? with
  | some (first, _), some (_, last) => some (form first, last)
  | _, _ => none

def findWord (key : Bytes) : Option ℕ := (language.findBy id key).map Prod.snd

def findTrimmed (key : Bytes) : Option (Bytes × ℕ) := language.findBy (trim language.uniquePrefixLength) key

def key (word : Bytes) : Option Bytes := lib.canonical (utf8Prefix language.uniquePrefixLength word)

def DistinctPrefixes : Prop := (language.wordList.map language.key).Nodup

variable {language}

theorem findBy_eq_some {form : Bytes → Bytes} {k first : Bytes} {i : ℕ} (h : language.findBy form k = some (first, i)) :
    ∃ word, language.wordList[i]? = some word ∧ lib.canonical (form word) = some k := by
  rw [findBy] at h
  split at h
  · rename_i x y last hhead hlast
    cases h
    have hmem := List.mem_of_getLast? hlast
    rw [List.mem_filter, List.mem_zipIdx_iff_getElem?] at hmem
    exact ⟨_, hmem.1, of_decide_eq_true hmem.2⟩
  · cases h

theorem findBy_of_getElem {form : Bytes → Bytes} (hnodup : (language.wordList.map fun word => lib.canonical (form word)).Nodup)
    {i : ℕ} {word k : Bytes} (hi : language.wordList[i]? = some word) (hk : lib.canonical (form word) = some k) :
    language.findBy form k = some (form word, i) := by
  have honly : ∀ x ∈ language.wordList.zipIdx.filter (fun x => decide (lib.canonical (form x.1) = some k)), x = (word, i) := by
    rintro ⟨w, j⟩ hx
    rw [List.mem_filter, List.mem_zipIdx_iff_getElem?] at hx
    obtain ⟨hj, hw⟩ := hx
    have hsame : (language.wordList.map fun word => lib.canonical (form word))[j]? =
        (language.wordList.map fun word => lib.canonical (form word))[i]? := by
      rw [List.getElem?_map, List.getElem?_map, hj, hi, Option.map_some, Option.map_some, hk, of_decide_eq_true hw]
    have hlt : j < (language.wordList.map fun word => lib.canonical (form word)).length := by
      rw [List.length_map]
      exact (List.getElem?_eq_some_iff.mp hj).1
    have hji := (List.getElem?_inj hlt hnodup).mp hsame
    subst hji
    rw [hi] at hj
    cases hj
    rfl
  have hmem : (word, i) ∈ language.wordList.zipIdx.filter fun x => decide (lib.canonical (form x.1) = some k) := by
    rw [List.mem_filter, List.mem_zipIdx_iff_getElem?]
    exact ⟨hi, decide_eq_true hk⟩
  have hne := List.ne_nil_of_mem hmem
  have hhead := honly _ (List.head_mem hne)
  have hlast := honly _ (List.getLast_mem hne)
  rw [findBy, List.head?_eq_some_head hne, List.getLast?_eq_some_getLast hne, hhead, hlast]

theorem findTrimmed_eq_some {k first : Bytes} {i : ℕ} (h : language.findTrimmed k = some (first, i)) :
    ∃ word, language.wordList[i]? = some word ∧ language.key word = some k := by
  obtain ⟨word, hi, hk⟩ := findBy_eq_some h
  rw [trim_eq] at hk
  exact ⟨word, hi, hk⟩

theorem DistinctPrefixes.findTrimmed (h : language.DistinctPrefixes) {i : ℕ} {word k : Bytes}
    (hi : language.wordList[i]? = some word) (hk : language.key word = some k) :
    language.findTrimmed k = some (trim language.uniquePrefixLength word, i) := by
  refine findBy_of_getElem ?_ hi (by rw [trim_eq]; exact hk)
  simp only [trim_eq]
  exact h

theorem lt_of_findTrimmed {k first : Bytes} {i : ℕ} (h : language.findTrimmed k = some (first, i)) : i < nwords := by
  obtain ⟨word, hi, -⟩ := findTrimmed_eq_some h
  rw [← language.length_eq]
  exact (List.getElem?_eq_some_iff.mp hi).1

theorem isSome_key {word : Bytes} (h : word ∈ language.wordList) : (language.key word).isSome = true := by
  rw [key, ← trim_eq]
  exact (language.isText word h).2

end Language

end Velkavo.Mnemonics
