import Velkavo.Mnemonics.PhraseRoundTrip

/-! How many words a phrase may have, and what comes of the other numbers. -/

namespace Velkavo.Mnemonics

open ByteCodec Effects

variable {lib : Library} {languages : List (Language lib)} {language : Language lib}

def dataWords (len size : ℕ) : ℕ := if hasChecksum len size then size - 1 else size

def Screened (len size : ℕ) : Prop :=
  len % 4 = 0 ∧ (len = 0 ∨ size = expectedWords len / 2 ∨ size = expectedWords len ∨ size = expectedWords len + 1)

def FullOrHalf (len : ℕ) (duplicate : Bool) (data : Bytes) : Prop :=
  data.length = len ∨ ∃ half : Bytes, 2 * half.length = len ∧ data = if duplicate then half ++ half else half

structure WellBehaved (outcome : Except Fault (Option (Bytes × Language lib))) (words : ℕ) (dst : Bytes) (len : ℕ)
    (duplicate : Bool) : Prop where
  safe : ∀ fault, outcome = .error fault → fault = .invalidUtf8 ∨ fault = .wordNotFound
  whole : words % 3 ≠ 0 → outcome = .ok none
  sized : dst = [] → 0 < len → ∀ data language, outcome = .ok (some (data, language)) → FullOrHalf len duplicate data

def LoneWord (languages : List (Language lib)) (seed : List Bytes) : Prop :=
  seed.length = 1 ∧ ∃ before language after, languages = before ++ language :: after ∧
    (∀ l ∈ before, l.matchWords true seed = .ok none) ∧ ∃ indices, language.matchWords true seed = .ok (some indices)

def Readable (languages : List (Language lib)) (seed : List Bytes) (len : ℕ) : Prop :=
  ∃ language matchedIndices restored,
    findSeedLanguage seed (hasChecksum len seed.length) languages none = .ok (some (language, matchedIndices)) ∧
    (hasChecksum len seed.length = true → language.checksumTest seed = .ok true) ∧
    appendGroups (min (dataWords len seed.length / 3) (2 ^ 32)) matchedIndices [] = .ok (some restored)

def Fits (words : ℕ) (dst : Bytes) (len : ℕ) (duplicate : Bool) : Prop :=
  words % 3 = 0 ∧ words / 3 < 2 ^ 32 ∧
    (dst = [] → 0 < len → 4 * (words / 3) = len ∨ 8 * (words / 3) = len ∧ duplicate = false)

structure Clean (languages : List (Language lib)) (seed : List Bytes) (dst : Bytes) (len : ℕ) (duplicate : Bool) : Prop where
  notLone : ¬(hasChecksum len seed.length = true ∧ LoneWord languages seed)
  text : findSeedLanguage seed (hasChecksum len seed.length) languages none = .error .invalidUtf8 →
    dataWords len seed.length % 3 = 0
  fits : Readable languages seed len → Fits (dataWords len seed.length) dst len duplicate

section

variable {seed : List Bytes} {fault : Fault}

theorem canonicalKey_eq_error {word : Bytes} (h : canonicalKey lib word = .error fault) :
    fault = .invalidUtf8 := by
  rw [canonicalKey] at h
  split at h
  · cases h
    rfl
  · cases h

theorem matchWord_eq_error {hasChecksum : Bool} {word : Bytes}
    (h : language.matchWord hasChecksum word = .error fault) : fault = .invalidUtf8 := by
  rw [Language.matchWord] at h
  split_ifs at h
  · rcases bind_eq_error.mp h with hkey | ⟨key, -, hfind⟩
    · exact canonicalKey_eq_error hkey
    · cases hfind
  · rcases bind_eq_error.mp h with hkey | ⟨key, -, hfind⟩
    · exact canonicalKey_eq_error hkey
    · cases hfind

theorem matchWords_eq_error {hasChecksum : Bool}
    (h : language.matchWords hasChecksum seed = .error fault) : fault = .invalidUtf8 := by
  induction seed with
  | nil => cases h
  | cons word seed ih =>
    rw [Language.matchWords] at h
    rcases bind_eq_error.mp h with hword | ⟨found, -, h⟩
    · exact matchWord_eq_error hword
    · cases found with
      | none => cases h
      | some i =>
        rcases bind_eq_error.mp h with hrest | ⟨rest, -, h⟩
        · exact ih hrest
        · cases h

theorem checksumTest_of_matchWords {indices : List ℕ} (h : language.matchWords true seed = .ok (some indices)) :
    seed.length = 1 ∧ language.checksumTest seed = .error .divisionByZero ∨
      seed.length ≠ 1 ∧ ∃ answer, language.checksumTest seed = .ok answer := by
  have hword := Language.exists_of_matchWords h
  rcases List.eq_nil_or_concat seed with rfl | ⟨words, last, rfl⟩
  · exact .inr ⟨Nat.zero_ne_one, false, rfl⟩
  rw [List.concat_eq_append] at hword ⊢
  have hkey {word : Bytes} (hmem : word ∈ words ++ [last]) : ∃ key, language.key word = some key := by
    obtain ⟨i, hi⟩ := hword word hmem
    obtain ⟨key, -, hkey, -⟩ := Language.matchWord_eq_some.mp hi
    exact ⟨key, hkey⟩
  cases words with
  | nil => exact .inl ⟨rfl, rfl⟩
  | cons word words =>
    refine .inr ⟨by simp, ?_⟩
    obtain ⟨idx, hidx, hlt⟩ := Language.exists_createChecksumIndex (List.cons_ne_nil word words) fun w hw =>
      hword w (List.mem_append_left _ hw)
    have hpicked := List.getElem?_eq_getElem hlt
    obtain ⟨key, hkey₁⟩ := hkey (List.mem_append_left _ (List.getElem_mem hlt))
    obtain ⟨key', hkey₂⟩ := hkey (List.mem_append_right _ (List.mem_singleton.mpr rfl))
    exact ⟨_, Language.checksumTest_append.mpr ⟨idx, _, key, key', hidx, hpicked, hkey₁, hkey₂, rfl⟩⟩

theorem findSeedLanguage_eq_error {checksum : Bool} {fallback : Option (Language lib)}
    (h : findSeedLanguage seed checksum languages fallback = .error fault) :
    fault = .invalidUtf8 ∨ fault = .divisionByZero ∧ checksum = true ∧ LoneWord languages seed := by
  induction languages generalizing fallback with
  | nil => cases h
  | cons first rest ih =>
    rw [findSeedLanguage] at h
    rcases bind_eq_error.mp h with hmatch | ⟨found, hfound, h⟩
    · exact .inl (matchWords_eq_error hmatch)
    · cases found with
      | none =>
        rcases ih h with hutf | ⟨hzero, rfl, hlength, before, language, after, rfl, hbefore, hlanguage⟩
        · exact .inl hutf
        · exact .inr ⟨hzero, rfl, hlength, first :: before, language, after, rfl,
            List.forall_mem_cons.mpr ⟨hfound, hbefore⟩, hlanguage⟩
      | some indices =>
        cases checksum with
        | false => cases h
        | true =>
          rcases checksumTest_of_matchWords hfound with ⟨hlength, htest⟩ | ⟨hlength, answer, htest⟩
          · rcases bind_eq_error.mp h with herror | ⟨answer, hanswer, -⟩
            · rw [htest] at herror
              cases herror
              exact .inr ⟨rfl, rfl, hlength, [], first, rest, rfl, fun l hl => absurd hl List.not_mem_nil, indices, hfound⟩
            · rw [htest] at hanswer
              cases hanswer
          · rcases bind_eq_error.mp h with herror | ⟨answer', hanswer, h⟩
            · rw [htest] at herror
              cases herror
            · cases answer' with
              | true => cases h
              | false =>
                rcases ih h with hutf | ⟨-, -, hone, -⟩
                · exact .inl hutf
                · exact absurd hone hlength

theorem LoneWord.findSeedLanguage {fallback : Option (Language lib)} (h : LoneWord languages seed) :
    findSeedLanguage seed true languages fallback = .error .divisionByZero := by
  obtain ⟨hlength, before, language, after, rfl, hbefore, indices, hlanguage⟩ := h
  induction before with
  | nil =>
    rcases checksumTest_of_matchWords hlanguage with ⟨-, htest⟩ | ⟨hne, -⟩
    · rw [List.nil_append, Mnemonics.findSeedLanguage, hlanguage]
      change (language.checksumTest seed >>= _) = _
      rw [htest]
      rfl
    · exact absurd hlength hne
  | cons l before ih =>
    obtain ⟨hl, hbefore⟩ := List.forall_mem_cons.mp hbefore
    rw [List.cons_append, Mnemonics.findSeedLanguage, hl]
    exact ih hbefore

end

section

theorem appendGroups_appends {groups : ℕ} {matchedIndices : List ℕ} {dst restored : Bytes}
    (h : appendGroups groups matchedIndices dst = .ok (some restored)) :
    ∃ data : Bytes, data.length = 4 * groups ∧ restored = dst ++ data ∧
      ∀ dst', appendGroups groups matchedIndices dst' = .ok (some (dst' ++ data)) := by
  induction groups, matchedIndices, dst using appendGroups.induct with
  | case1 matchedIndices dst =>
    cases h
    exact ⟨[], rfl, (List.append_nil _).symm, fun dst' => by rw [List.append_nil]; rfl⟩
  | case2 dst groups w₁ w₂ w₃ rest hdecode =>
    rw [appendGroups, hdecode] at h
    cases h
  | case3 dst groups w₁ w₂ w₃ rest w₀ hdecode ih =>
    rw [appendGroups, hdecode] at h
    obtain ⟨data, hlength, hrestored, hall⟩ := ih h
    refine ⟨littleEndian 4 w₀ ++ data, ?_, by rw [hrestored, List.append_assoc], fun dst' => ?_⟩
    · rw [List.length_append, littleEndian_length, hlength]
      omega
    · rw [appendGroups, hdecode, ← List.append_assoc]
      exact hall _
  | case4 groups indices dst hshort =>
    rw [appendGroups] at h
    · cases h
    · exact hshort

theorem exists_appendGroups {groups : ℕ} {matchedIndices : List ℕ} (dst : Bytes) (h : 3 * groups ≤ matchedIndices.length) :
    ∃ answer, appendGroups groups matchedIndices dst = .ok answer := by
  induction groups, matchedIndices, dst using appendGroups.induct with
  | case1 => exact ⟨_, rfl⟩
  | case2 dst groups w₁ w₂ w₃ rest hdecode =>
    refine ⟨none, ?_⟩
    rw [appendGroups, hdecode]
    rfl
  | case3 dst groups w₁ w₂ w₃ rest w₀ hdecode ih =>
    obtain ⟨answer, hanswer⟩ := ih (by simp only [List.length_cons] at h; omega)
    refine ⟨answer, ?_⟩
    rw [appendGroups, hdecode]
    exact hanswer
  | case4 groups indices dst hshort =>
    rcases indices with _ | ⟨w₁, _ | ⟨w₂, _ | ⟨w₃, rest⟩⟩⟩
    · simp only [List.length_nil] at h
      omega
    · simp only [List.length_cons, List.length_nil] at h
      omega
    · simp only [List.length_cons, List.length_nil] at h
      omega
    · exact (hshort w₁ w₂ w₃ rest rfl).elim

theorem fullOrHalf_iff {len groups : ℕ} {duplicate : Bool} {data : Bytes} (h : data.length = 4 * groups) :
    FullOrHalf len duplicate data ↔ 4 * groups = len ∨ 8 * groups = len ∧ duplicate = false := by
  rw [FullOrHalf, h]
  constructor
  · rintro (hfull | ⟨half, hhalf, hdata⟩)
    · exact .inl hfull
    · cases duplicate with
      | true =>
        rw [hdata, if_pos rfl, List.length_append] at h
        omega
      | false =>
        rw [hdata, if_neg Bool.false_ne_true] at h
        exact .inr ⟨by omega, rfl⟩
  · rintro (hfull | ⟨hhalf, rfl⟩)
    · exact .inl hfull
    · exact .inr ⟨data, by omega, rfl⟩

end

section

variable {phrase dst : Bytes} {len : ℕ} {duplicate : Bool}

theorem screened_iff {size : ℕ} : Screened len size ↔ ¬len % 4 ≠ 0 ∧
    ¬(len ≠ 0 ∧ size ≠ expectedWords len / 2 ∧ size ≠ expectedWords len ∧ size ≠ expectedWords len + 1) := by
  rw [Screened]
  omega

theorem wordsToBytes_of_not_screened (h : ¬Screened len (split phrase).length) :
    wordsToBytes languages phrase dst len duplicate = .ok none := by
  rw [screened_iff, not_and_or, not_not, not_not] at h
  rw [wordsToBytes]
  rcases h with hlen | hsize
  · exact if_pos hlen
  · by_cases hlen : len % 4 ≠ 0
    · exact if_pos hlen
    · rw [if_neg hlen]
      exact if_pos hsize

variable (hscreened : Screened len (split phrase).length)

include hscreened

theorem wordsToBytes_of_error {fault : Fault}
    (h : findSeedLanguage (split phrase) (hasChecksum len (split phrase).length) languages none = .error fault) :
    wordsToBytes languages phrase dst len duplicate = .error fault := by
  obtain ⟨hlen, hsize⟩ := screened_iff.mp hscreened
  rw [wordsToBytes, if_neg hlen, if_neg hsize, h]
  rfl

theorem wordsToBytes_of_none
    (h : findSeedLanguage (split phrase) (hasChecksum len (split phrase).length) languages none = .ok none) :
    wordsToBytes languages phrase dst len duplicate = .ok none := by
  obtain ⟨hlen, hsize⟩ := screened_iff.mp hscreened
  rw [wordsToBytes, if_neg hlen, if_neg hsize, h]
  rfl

variable {matchedIndices : List ℕ}

theorem wordsToBytes_of_wrong_checksum (hchecksum : hasChecksum len (split phrase).length = true)
    (h : findSeedLanguage (split phrase) (hasChecksum len (split phrase).length) languages none =
      .ok (some (language, matchedIndices))) (htest : language.checksumTest (split phrase) = .ok false) :
    wordsToBytes languages phrase dst len duplicate = .ok none := by
  obtain ⟨hlen, hsize⟩ := screened_iff.mp hscreened
  rw [wordsToBytes, if_neg hlen, if_neg hsize, h]
  refine (if_pos hchecksum).trans ?_
  rw [htest]
  rfl

theorem wordsToBytes_of_found
    (h : findSeedLanguage (split phrase) (hasChecksum len (split phrase).length) languages none =
      .ok (some (language, matchedIndices)))
    (htest : hasChecksum len (split phrase).length = true → language.checksumTest (split phrase) = .ok true) :
    wordsToBytes languages phrase dst len duplicate =
      restoreData len duplicate (dataWords len (split phrase).length) matchedIndices dst >>= fun data =>
        pure (data.map (·, language)) := by
  obtain ⟨hlen, hsize⟩ := screened_iff.mp hscreened
  rw [wordsToBytes, if_neg hlen, if_neg hsize, h, dataWords]
  by_cases hchecksum : hasChecksum len (split phrase).length = true
  · refine (if_pos hchecksum).trans ?_
    rw [htest hchecksum, if_pos hchecksum]
    rfl
  · rw [if_neg hchecksum]
    exact if_neg hchecksum

omit hscreened

theorem wellBehaved_none (words : ℕ) : @WellBehaved lib (.ok none) words dst len duplicate where
  safe := by
    intro fault h
    cases h
  whole := fun _ => rfl
  sized := by
    intro _ _ data language h
    cases h

theorem clean_of_ok {seed : List Bytes} {found : Option (Language lib × List ℕ)}
    (h : findSeedLanguage seed (hasChecksum len seed.length) languages none = .ok found)
    (hfits : Readable languages seed len → Fits (dataWords len seed.length) dst len duplicate) :
    Clean languages seed dst len duplicate where
  notLone := by
    rintro ⟨hchecksum, hlone⟩
    rw [hchecksum, hlone.findSeedLanguage] at h
    cases h
  text := by
    intro herror
    rw [h] at herror
    cases herror
  fits := hfits

theorem length_of_matchWords {seed : List Bytes} {checksum : Bool} {indices : List ℕ}
    (h : language.matchWords checksum seed = .ok (some indices)) : indices.length = seed.length :=
  (Language.matchWords_eq_some.mp h).length_eq.symm

theorem dataWords_le (len size : ℕ) : dataWords len size ≤ size := by
  rw [dataWords]
  split_ifs
  · exact Nat.sub_le _ _
  · exact Nat.le_refl _

theorem dataWords_of_screened {size : ℕ} (h : Screened len size) (hpos : 0 < len) :
    dataWords len size = expectedWords len / 2 ∨ dataWords len size = expectedWords len := by
  rw [dataWords]
  by_cases hchecksum : hasChecksum len size = true
  · rw [if_pos hchecksum]
    rcases of_decide_eq_true hchecksum with hzero | hsize <;> omega
  · rw [if_neg hchecksum]
    have hsize : size ≠ expectedWords len + 1 := fun hsize => hchecksum (decide_eq_true (.inr hsize))
    have hall := h.2
    omega

theorem restoreData_of_small {words : ℕ} (hsmall : words / 3 < 2 ^ 32) :
    restoreData len duplicate words matchedIndices dst = appendGroups (words / 3) matchedIndices dst >>= fun answer =>
      pure (answer.map fun data =>
        if 0 < len ∧ duplicate = true ∧ words = expectedForDuplicate len / 2 then data ++ data else data) := by
  rw [restoreData, decodeGroups, if_pos hsmall]
  cases appendGroups (words / 3) matchedIndices dst with
  | error fault => rfl
  | ok answer =>
    cases answer with
    | none => rfl
    | some data =>
      change (if _ then _ else _) = Except.ok (some (if _ then _ else _))
      split_ifs <;> rfl

theorem restoreData_of_large {words : ℕ} (hlarge : ¬words / 3 < 2 ^ 32) :
    restoreData len duplicate words matchedIndices dst = appendGroups (2 ^ 32) matchedIndices dst >>= fun answer =>
      if answer.isSome then throw .endless else pure none := by
  rw [restoreData, decodeGroups, if_neg hlarge]
  cases appendGroups (2 ^ 32) matchedIndices dst with
  | error fault => rfl
  | ok answer =>
    cases answer with
    | none => rfl
    | some data => rfl

theorem wellBehaved_of_restored {words : ℕ} {data : Bytes} (hlen : len % 4 = 0)
    (hwords : 0 < len → words = expectedWords len / 2 ∨ words = expectedWords len) (hsmall : words / 3 < 2 ^ 32)
    (h : appendGroups (words / 3) matchedIndices dst = .ok (some data)) :
    WellBehaved (.ok (some (if 0 < len ∧ duplicate = true ∧ words = expectedForDuplicate len / 2 then data ++ data else data,
      language))) words dst len duplicate ↔ Fits words dst len duplicate := by
  obtain ⟨read, hread, hdata, -⟩ := appendGroups_appends h
  have hlength : data.length = dst.length + 4 * (words / 3) := by rw [hdata, List.length_append, hread]
  -- the data is repeated only when there is none
  have honce : dst = [] → 0 < len →
      (if 0 < len ∧ duplicate = true ∧ words = expectedForDuplicate len / 2 then data ++ data else data) = data := by
    rintro rfl hpos
    split_ifs with hduplicate
    · have hzero := eq_zero_of_duplicate hlen hsmall (hwords hpos) hduplicate.2.2
      rw [hzero] at hlength
      rw [List.length_eq_zero_iff.mp hlength, List.nil_append]
    · rfl
  have hshape (hnil : dst = []) (hpos : 0 < len) := @fullOrHalf_iff len _ duplicate _
    (show data.length = 4 * (words / 3) by rw [hlength, hnil, List.length_nil, Nat.zero_add])
  constructor
  · intro hwell
    refine ⟨?_, hsmall, fun hnil hpos => ?_⟩
    · by_contra hthree
      cases hwell.whole hthree
    · have hsized := hwell.sized hnil hpos _ _ rfl
      rw [honce hnil hpos] at hsized
      exact (hshape hnil hpos).mp hsized
  · rintro ⟨hthree, -, hsized⟩
    refine ⟨?_, fun hnot => absurd hthree hnot, ?_⟩
    · intro fault hfault
      cases hfault
    intro hnil hpos data' language' hdata
    cases hdata
    rw [honce hnil hpos]
    exact (hshape hnil hpos).mpr (hsized hnil hpos)

theorem wellBehaved_of_found (hscreened : Screened len (split phrase).length)
    (hfound : findSeedLanguage (split phrase) (hasChecksum len (split phrase).length) languages none =
      .ok (some (language, matchedIndices)))
    (hmatch : language.matchWords (hasChecksum len (split phrase).length) (split phrase) = .ok (some matchedIndices))
    (htest : hasChecksum len (split phrase).length = true → language.checksumTest (split phrase) = .ok true) :
    WellBehaved (wordsToBytes languages phrase dst len duplicate) (dataWords len (split phrase).length) dst len duplicate ↔
      (Readable languages (split phrase) len → Fits (dataWords len (split phrase).length) dst len duplicate) := by
  have hwords := dataWords_of_screened hscreened
  have henough : dataWords len (split phrase).length ≤ matchedIndices.length := by
    rw [length_of_matchWords hmatch]
    exact dataWords_le _ _
  have hreadable : Readable languages (split phrase) len ↔
      ∃ restored, appendGroups (min (dataWords len (split phrase).length / 3) (2 ^ 32)) matchedIndices dst = .ok (some restored) := by
    constructor
    · rintro ⟨language', matchedIndices', restored, hfound', -, hgroups⟩
      rw [hfound] at hfound'
      cases hfound'
      obtain ⟨data, -, -, hall⟩ := appendGroups_appends hgroups
      exact ⟨dst ++ data, hall dst⟩
    · rintro ⟨restored, hgroups⟩
      obtain ⟨data, -, -, hall⟩ := appendGroups_appends hgroups
      exact ⟨language, matchedIndices, [] ++ data, hfound, htest, hall []⟩
  rw [wordsToBytes_of_found hscreened hfound htest, hreadable]
  generalize dataWords len (split phrase).length = words at *
  by_cases hsmall : words / 3 < 2 ^ 32
  · rw [Nat.min_eq_left hsmall.le, restoreData_of_small hsmall]
    obtain ⟨answer, hanswer⟩ := @exists_appendGroups (words / 3) matchedIndices dst (by omega)
    rw [hanswer]
    cases answer with
    | none =>
      refine iff_of_true (wellBehaved_none words) ?_
      rintro ⟨restored, hrestored⟩
      cases hrestored
    | some data =>
      refine (wellBehaved_of_restored hscreened.1 hwords hsmall hanswer).trans ?_
      exact ⟨fun hfits _ => hfits, fun hfits => hfits ⟨data, rfl⟩⟩
  · rw [Nat.min_eq_right (Nat.le_of_not_lt hsmall), restoreData_of_large hsmall]
    obtain ⟨answer, hanswer⟩ := @exists_appendGroups (2 ^ 32) matchedIndices dst (by omega)
    rw [hanswer]
    cases answer with
    | none =>
      refine iff_of_true (wellBehaved_none words) ?_
      rintro ⟨restored, hrestored⟩
      cases hrestored
    | some data =>
      refine iff_of_false ?_ fun hfits => hsmall (hfits ⟨data, rfl⟩).2.1
      intro hwell
      rcases hwell.safe .endless rfl with hfault | hfault <;> cases hfault

end

section

def loneWord : Bytes := "aaa".toUTF8.toList

def halfLengthPhrase : Bytes := "aaa aaa aaa".toUTF8.toList

theorem matchWord_letters_full {i : ℕ} (h : i < nwords) : letters.matchWord false (letterWord i) = .ok (some i) := by
  have hplace : letters.wordList[i]? = some (letterWord i) := by
    rw [Language.getElem?_wordAt h, wordAt_letters h]
  have hforms : (letters.wordList.map fun word => plainLibrary.canonical (id word)).Nodup := by
    have hdistinct := letters_distinctPrefixes
    rw [Language.DistinctPrefixes, letters_wordList] at hdistinct
    rw [letters_wordList]
    rw [letterWords, List.map_map] at hdistinct ⊢
    refine (List.map_congr_left ?_ : _ = _) ▸ hdistinct
    intro j _
    exact (key_letterWord j).trans (canonical_letterWord j).symm
  have hfind : letters.findWord (letterWord i) = some i := by
    rw [Language.findWord, Language.findBy_of_getElem hforms hplace (canonical_letterWord i)]
    rfl
  rw [Language.matchWord, if_neg Bool.false_ne_true, canonicalKey_eq_ok.mpr (canonical_letterWord i)]
  change Except.ok (letters.findWord (letterWord i)) = _
  rw [hfind]

end

end Velkavo.Mnemonics
