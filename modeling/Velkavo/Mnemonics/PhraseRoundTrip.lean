import Velkavo.Mnemonics.WordTriples

namespace Velkavo.Mnemonics

open ByteCodec Effects

variable {lib : Library} {languages listed : List (Language lib)} {language : Language lib}

section

variable {seed : List Bytes} {fallback : Option (Language lib)} {matchedIndices : List ℕ}

theorem findSeedLanguage_cases {checksum : Bool}
    (h : findSeedLanguage seed checksum languages fallback = .ok (some (language, matchedIndices))) :
    language ∈ languages ∧ language.matchWords checksum seed = .ok (some matchedIndices) ∧
        (checksum = true → language.checksumTest seed = .ok true) ∨
      matchedIndices = [] ∧ (fallback = some language ∨
        language ∈ languages ∧ checksum = true ∧ language.checksumTest seed = .ok false) := by
  induction languages generalizing fallback with
  | nil =>
    rw [findSeedLanguage] at h
    obtain ⟨l, hl, hpair⟩ := Option.map_eq_some_iff.mp (Except.ok.inj h)
    cases hpair
    exact .inr ⟨rfl, .inl hl⟩
  | cons first rest ih =>
    have hlater {fallback' : Option (Language lib)}
        (hrest : findSeedLanguage seed checksum rest fallback' = .ok (some (language, matchedIndices)))
        (hfallback : fallback' = some language → fallback = some language ∨
          language ∈ first :: rest ∧ checksum = true ∧ language.checksumTest seed = .ok false) :
        language ∈ first :: rest ∧ language.matchWords checksum seed = .ok (some matchedIndices) ∧
            (checksum = true → language.checksumTest seed = .ok true) ∨
          matchedIndices = [] ∧ (fallback = some language ∨
            language ∈ first :: rest ∧ checksum = true ∧ language.checksumTest seed = .ok false) := by
      rcases ih hrest with ⟨hmem, hfound⟩ | ⟨hnil, hfell | ⟨hmem, hfailed⟩⟩
      · exact .inl ⟨List.mem_cons_of_mem _ hmem, hfound⟩
      · exact .inr ⟨hnil, hfallback hfell⟩
      · exact .inr ⟨hnil, .inr ⟨List.mem_cons_of_mem _ hmem, hfailed⟩⟩
    rw [findSeedLanguage, bind_eq_ok] at h
    obtain ⟨found, hfound, h⟩ := h
    cases found with
    | none => exact hlater h .inl
    | some indices =>
      cases checksum with
      | false =>
        cases h
        exact .inl ⟨List.mem_cons_self, hfound, fun hfalse => absurd hfalse Bool.false_ne_true⟩
      | true =>
        obtain ⟨answer, hanswer, h⟩ := bind_eq_ok.mp h
        cases answer with
        | true =>
          cases h
          exact .inl ⟨List.mem_cons_self, hfound, fun _ => hanswer⟩
        | false =>
          refine hlater h fun heq => .inr ?_
          cases heq
          exact ⟨List.mem_cons_self, rfl, hanswer⟩

theorem matchWords_of_findSeedLanguage
    (h : findSeedLanguage seed true languages none = .ok (some (language, matchedIndices)))
    (htest : language.checksumTest seed = .ok true) :
    language ∈ languages ∧ language.matchWords true seed = .ok (some matchedIndices) := by
  rcases findSeedLanguage_cases h with ⟨hmem, hmatch, -⟩ | ⟨-, hnone | ⟨-, -, hfailed⟩⟩
  · exact ⟨hmem, hmatch⟩
  · cases hnone
  · rw [htest] at hfailed
    cases hfailed

end

variable {len : ℕ}

theorem size_of_hasChecksum {size : ℕ} (h : hasChecksum len size = true) :
    ¬(len ≠ 0 ∧ size ≠ expectedWords len / 2 ∧ size ≠ expectedWords len ∧ size ≠ expectedWords len + 1) := by
  rcases of_decide_eq_true h with hzero | hsize
  · exact fun hnot => hnot.1 hzero
  · exact fun hnot => hnot.2.2.2 hsize

theorem wordsToBytes_eq_some {words dst data : Bytes} {duplicate : Bool}
    (hchecksum : hasChecksum len (split words).length = true) :
    wordsToBytes languages words dst len duplicate = .ok (some (data, language)) ↔
      len % 4 = 0 ∧ ∃ matchedIndices,
        findSeedLanguage (split words) true languages none = .ok (some (language, matchedIndices)) ∧
        language.checksumTest (split words) = .ok true ∧
        restoreData len duplicate ((split words).length - 1) matchedIndices dst = .ok (some data) := by
  rw [wordsToBytes, if_neg (size_of_hasChecksum hchecksum), hchecksum]
  by_cases hlen : len % 4 = 0
  · rw [if_neg (not_not_intro hlen), bind_eq_ok]
    constructor
    · rintro ⟨found, hfound, h⟩
      cases found with
      | none => cases h
      | some found =>
        obtain ⟨answer, hanswer, h⟩ := bind_eq_ok.mp h
        cases answer with
        | false => cases h
        | true =>
          obtain ⟨restored, hrestored, h⟩ := bind_eq_ok.mp h
          obtain ⟨d, hd, hpair⟩ := Option.map_eq_some_iff.mp (Except.ok.inj h)
          cases hpair
          rw [hd] at hrestored
          exact ⟨hlen, found.2, hfound, hanswer, hrestored⟩
    · rintro ⟨-, matchedIndices, hfound, htest, hrestored⟩
      exact ⟨_, hfound, bind_eq_ok.mpr ⟨true, htest, bind_eq_ok.mpr ⟨some data, hrestored, rfl⟩⟩⟩
  · rw [if_pos hlen]
    exact iff_of_false (fun h => by cases h) fun h => hlen h.1

theorem eq_zero_of_duplicate {words : ℕ} (hlen : len % 4 = 0) (hgroups : words / 3 < 2 ^ 32)
    (hwords : words = expectedWords len / 2 ∨ words = expectedWords len) (h : words = expectedForDuplicate len / 2) : words = 0 := by
  -- both numbers come from a quarter of the same product of 64 bits
  obtain ⟨k, hk⟩ : ∃ k, len * 3 % 2 ^ 64 = 4 * k := ⟨len * 3 % 2 ^ 64 / 4, by omega⟩
  have hexpected : expectedWords len = k % 2 ^ 59 := by
    rw [expectedWords]
    omega
  have hduplicate : expectedForDuplicate len / 2 = k / 16 := by
    rw [expectedForDuplicate]
    omega
  rw [hexpected] at hwords
  rw [hduplicate] at h
  clear hk hlen hexpected hduplicate
  rcases Nat.eq_zero_or_pos (k / 2 ^ 59) with hsmall | hlarge <;> omega

theorem restoreData_eq_some {words : ℕ} {duplicate : Bool} {matchedIndices : List ℕ} {dst data : Bytes}
    (hlen : len % 4 = 0) (hpos : 0 < words) (hchecksum : hasChecksum len (words + 1) = true) :
    restoreData len duplicate words matchedIndices dst = .ok (some data) ↔
      words / 3 < 2 ^ 32 ∧ appendGroups (words / 3) matchedIndices dst = .ok (some data) := by
  rw [restoreData, decodeGroups]
  by_cases hgroups : words / 3 < 2 ^ 32
  · have hsingle : ¬(0 < len ∧ duplicate = true ∧ words = expectedForDuplicate len / 2) := by
      rintro ⟨hpositive, -, hdup⟩
      rcases of_decide_eq_true hchecksum with hzero | hsize
      · exact Nat.ne_of_gt hpositive hzero
      · exact Nat.ne_of_gt hpos (eq_zero_of_duplicate hlen hgroups (.inr (Nat.succ_injective hsize)) hdup)
    rw [if_pos hgroups, bind_eq_ok]
    constructor
    · rintro ⟨restored, hrestored, h⟩
      cases restored with
      | none => cases h
      | some d =>
        cases (if_neg hsingle).symm.trans h
        exact ⟨hgroups, hrestored⟩
    · rintro ⟨-, h⟩
      exact ⟨some data, h, if_neg hsingle⟩
  · rw [if_neg hgroups]
    refine iff_of_false ?_ fun h => hgroups h.1
    intro h
    obtain ⟨restored, hrestored, h⟩ := bind_eq_ok.mp h
    obtain ⟨passed, -, hrestored⟩ := bind_eq_ok.mp hrestored
    cases passed with
    | none =>
      cases hrestored
      cases h
    | some d => cases hrestored

section

def Language.wordsOf (language : Language lib) (blocks : List Bytes) : List Bytes := (placesOf blocks).map language.wordAt

variable {blocks : List Bytes}

theorem wordsStore_flatten (h : ∀ block ∈ blocks, block.length = 4) :
    language.wordsStore blocks.flatten = language.wordsOf blocks := by
  rw [Language.wordsStore, chunks_flatten (by decide) h, Language.wordsOf, placesOf, List.map_flatMap]

theorem length_wordsOf (blocks : List Bytes) : (language.wordsOf blocks).length = 3 * blocks.length := by
  rw [Language.wordsOf, List.length_map, length_placesOf]

theorem exists_place_of_mem_wordsOf {word : Bytes} (h : word ∈ language.wordsOf blocks) :
    ∃ i < nwords, language.wordAt i = word := by
  obtain ⟨i, hi, hword⟩ := List.mem_map.mp h
  exact ⟨i, lt_of_mem_placesOf hi, hword⟩

theorem map_key_of_matchWords {seed : List Bytes} {indices : List ℕ}
    (h : List.Forall₂ (fun word i => language.matchWord true word = .ok (some i)) seed indices) :
    (indices.map language.wordAt).map language.key = seed.map language.key ∧ ∀ i ∈ indices, i < nwords := by
  induction h with
  | nil => exact ⟨rfl, fun i hi => absurd hi List.not_mem_nil⟩
  | cons hword _ ih =>
    obtain ⟨hlt, hkey⟩ := Language.key_wordAt_of_matchWord hword
    refine ⟨?_, List.forall_mem_cons.mpr ⟨hlt, ih.2⟩⟩
    rw [List.map_cons, List.map_cons, List.map_cons, hkey, ih.1]

theorem Language.DistinctPrefixes.matchWords_wordAt (hdistinct : language.DistinctPrefixes) {indices : List ℕ}
    (h : ∀ i ∈ indices, i < nwords) : language.matchWords true (indices.map language.wordAt) = .ok (some indices) := by
  refine Language.matchWords_eq_some.mpr ?_
  rw [List.forall₂_map_left_iff, List.forall₂_same]
  exact fun i hi => hdistinct.matchWord_wordAt (h i hi)

variable (hdistinct : language.DistinctPrefixes)

include hdistinct in
theorem exists_checksum (hne : blocks ≠ []) :
    ∃ idx checksum, language.createChecksumIndex (language.wordsOf blocks) = .ok idx ∧
      (language.wordsOf blocks)[idx]? = some checksum := by
  have hwords : language.wordsOf blocks ≠ [] := by
    intro hnil
    have hlength := @length_wordsOf lib language blocks
    rw [hnil, List.length_nil] at hlength
    exact hne (List.length_eq_zero_iff.mp (by omega))
  have hfound : ∀ word ∈ language.wordsOf blocks, ∃ i, language.matchWord true word = .ok (some i) := by
    intro word hword
    obtain ⟨i, hi, rfl⟩ := exists_place_of_mem_wordsOf hword
    exact ⟨i, hdistinct.matchWord_wordAt hi⟩
  obtain ⟨idx, hidx, hlt⟩ := Language.exists_createChecksumIndex hwords hfound
  exact ⟨idx, _, hidx, List.getElem?_eq_getElem hlt⟩

theorem split_wordsOf {idx : ℕ} {checksum : Bytes} (h : (language.wordsOf blocks)[idx]? = some checksum) :
    split ((language.wordsOf blocks).flatMap (· ++ [0x20]) ++ checksum) = language.wordsOf blocks ++ [checksum] := by
  refine split_phrase fun word hword => ?_
  have hmem : word ∈ language.wordsOf blocks := by
    rcases List.mem_append.mp hword with hword | hword
    · exact hword
    · rw [List.mem_singleton.mp hword]
      exact List.mem_of_getElem? h
  obtain ⟨i, hi, rfl⟩ := exists_place_of_mem_wordsOf hmem
  exact language.isWord _ (Language.wordAt_mem hi)

theorem bytesToWords_flatten {languageName : Bytes} (hselect : selectLanguage listed languageName = some language)
    (h : ∀ block ∈ blocks, block.length = 4) (hne : blocks ≠ []) (hsmall : blocks.length < 2 ^ 32) {idx : ℕ} {checksum : Bytes}
    (hidx : language.createChecksumIndex (language.wordsOf blocks) = .ok idx)
    (hchecksum : (language.wordsOf blocks)[idx]? = some checksum) :
    bytesToWords listed blocks.flatten [] languageName =
      .ok (some ((language.wordsOf blocks).flatMap (· ++ [0x20]) ++ checksum)) := by
  have hlength : blocks.flatten.length = 4 * blocks.length := length_flatten_blocks h
  have hpos : 0 < blocks.length := List.length_pos_of_ne_nil hne
  have hfits : ¬(blocks.flatten.length % 4 ≠ 0 ∨ blocks.flatten.length = 0) := by omega
  have hcounter : ¬2 ^ 32 ≤ blocks.flatten.length / 4 := by omega
  rw [bytesToWords, if_neg hfits, hselect]
  refine (if_neg hcounter).trans ?_
  rw [wordsStore_flatten h, bind_eq_ok]
  refine ⟨idx, hidx, ?_⟩
  rw [hchecksum]
  rfl

end

section

def Survives (languages listed : List (Language lib)) (language : Language lib) (languageName src : Bytes) : Prop :=
  ∃ phrase, bytesToWords listed src [] languageName = .ok (some phrase) ∧
    ∀ len duplicate, len = 0 ∨ len = src.length → ∀ matchedIndices,
      findSeedLanguage (split phrase) (hasChecksum len (split phrase).length) languages none =
          .ok (some (language, matchedIndices)) →
        wordsToBytes languages phrase [] len duplicate = .ok (some (src, language))

def EncodesBack (listed : List (Language lib)) (language : Language lib) (languageName phrase data : Bytes) : Prop :=
  ∃ phrase', bytesToWords listed data [] languageName = .ok (some phrase') ∧
    (split phrase').map language.key = (split phrase).map language.key

variable {blocks : List Bytes}

theorem checksumTest_wordsOf {idx : ℕ} {checksum : Bytes}
    (hidx : language.createChecksumIndex (language.wordsOf blocks) = .ok idx)
    (hchecksum : (language.wordsOf blocks)[idx]? = some checksum) :
    language.checksumTest (language.wordsOf blocks ++ [checksum]) = .ok true := by
  obtain ⟨i, hi, rfl⟩ := exists_place_of_mem_wordsOf (List.mem_of_getElem? hchecksum)
  obtain ⟨key, hkey⟩ := Option.isSome_iff_exists.mp (Language.isSome_key (@Language.wordAt_mem lib language _ hi))
  exact Language.checksumTest_append.mpr ⟨idx, _, key, key, hidx, hchecksum, hkey, hkey, (decide_eq_true rfl).symm⟩

variable {languageName : Bytes} (hdistinct : language.DistinctPrefixes)
  (hselect : selectLanguage listed languageName = some language)

include hdistinct

theorem matchWords_wordsOf {idx : ℕ} {checksum : Bytes}
    (hchecksum : (language.wordsOf blocks)[idx]? = some checksum) :
    ∃ i, language.matchWords true (language.wordsOf blocks ++ [checksum]) = .ok (some (placesOf blocks ++ [i])) := by
  obtain ⟨i, hi, rfl⟩ := exists_place_of_mem_wordsOf (List.mem_of_getElem? hchecksum)
  refine ⟨i, ?_⟩
  have hmap : language.wordsOf blocks ++ [language.wordAt i] = (placesOf blocks ++ [i]).map language.wordAt := by
    rw [List.map_append]
    rfl
  rw [hmap]
  refine hdistinct.matchWords_wordAt fun j hj => ?_
  rcases List.mem_append.mp hj with hj | hj
  · exact lt_of_mem_placesOf hj
  · rw [List.mem_singleton.mp hj]
    exact hi

include hselect

theorem survives_flatten (h : ∀ block ∈ blocks, block.length = 4) (hne : blocks ≠ [])
    (hsmall : blocks.length < 2 ^ 32) : Survives languages listed language languageName blocks.flatten := by
  obtain ⟨idx, checksum, hidx, hchecksum⟩ := exists_checksum hdistinct hne
  refine ⟨_, bytesToWords_flatten hselect h hne hsmall hidx hchecksum, ?_⟩
  intro len duplicate hlen matchedIndices hfound
  have hsplit := split_wordsOf hchecksum
  have hlength : blocks.flatten.length = 4 * blocks.length := length_flatten_blocks h
  have hpos : 0 < blocks.length := List.length_pos_of_ne_nil hne
  have hdata : (language.wordsOf blocks).length = 3 * blocks.length := length_wordsOf blocks
  have hsize : hasChecksum len (3 * blocks.length + 1) = true := by
    refine decide_eq_true (hlen.imp_right fun hlen => ?_)
    rw [hlen, hlength, expectedWords]
    omega
  have hmod : len % 4 = 0 := by omega
  have hwith : hasChecksum len (split ((language.wordsOf blocks).flatMap (· ++ [0x20]) ++ checksum)).length = true := by
    rw [hsplit, List.length_append, hdata]
    exact hsize
  have htest := checksumTest_wordsOf hidx hchecksum
  rw [hwith] at hfound
  refine (wordsToBytes_eq_some hwith).mpr ⟨hmod, matchedIndices, hfound, ?_⟩
  rw [hsplit] at hfound ⊢
  obtain ⟨-, hmatch⟩ := matchWords_of_findSeedLanguage hfound htest
  obtain ⟨i, hplaces⟩ := matchWords_wordsOf hdistinct hchecksum
  rw [hplaces] at hmatch
  cases hmatch
  refine ⟨htest, ?_⟩
  rw [List.length_append, hdata]
  refine (restoreData_eq_some hmod (Nat.mul_pos (by decide) hpos) hsize).mpr ?_
  rw [Nat.mul_div_cancel_left _ (by decide)]
  exact ⟨hsmall, appendGroups_placesOf h [i] []⟩

theorem survives_iff {src : Bytes} (hne : src ≠ []) (hlength : src.length % 4 = 0) :
    Survives languages listed language languageName src ↔ src.length / 4 < 2 ^ 32 := by
  constructor
  · rintro ⟨phrase, hphrase, -⟩
    by_contra hlarge
    have hfits : ¬(src.length % 4 ≠ 0 ∨ src.length = 0) := by
      have := List.length_pos_of_ne_nil hne
      omega
    rw [bytesToWords, if_neg hfits, hselect] at hphrase
    cases (if_pos (Nat.le_of_not_lt hlarge)).symm.trans hphrase
  · intro hsmall
    obtain ⟨blocks, rfl, hcount, hblocks⟩ := exists_blocks (by decide) hlength
    rw [← hcount] at hsmall
    refine survives_flatten hdistinct hselect hblocks ?_ hsmall
    rintro rfl
    exact hne rfl

theorem encodesBack_iff {phrase data : Bytes} {len : ℕ} {duplicate : Bool}
    (hchecksum : hasChecksum len (split phrase).length = true)
    (h : wordsToBytes languages phrase [] len duplicate = .ok (some (data, language))) :
    EncodesBack listed language languageName phrase data ↔ ((split phrase).length - 1) % 3 = 0 := by
  obtain ⟨hmod, matchedIndices, hfound, htest, hrestored⟩ := (wordsToBytes_eq_some hchecksum).mp h
  obtain ⟨-, hmatch⟩ := matchWords_of_findSeedLanguage hfound htest
  rcases List.eq_nil_or_concat (split phrase) with hnil | ⟨words, last, hsplit⟩
  · rw [hnil] at htest
    cases htest
  rw [List.concat_eq_append] at hsplit
  unfold EncodesBack
  rw [hsplit] at htest hmatch hrestored hchecksum ⊢
  rw [List.length_append, List.length_singleton] at hchecksum
  rw [List.length_append, List.length_singleton, Nat.add_sub_cancel] at hrestored ⊢
  obtain ⟨idx, checksum, key, key', hidx, hpicked, hkey, hkey', hsame⟩ := Language.checksumTest_append.mp htest
  have hpos : 0 < words.length := Nat.zero_lt_of_lt (List.getElem?_eq_some_iff.mp hpicked).1
  obtain ⟨hgroups, hrestored⟩ := (restoreData_eq_some hmod hpos hchecksum).mp hrestored
  obtain ⟨hkeys, hlt⟩ := map_key_of_matchWords (Language.matchWords_eq_some.mp hmatch)
  obtain ⟨blocks, rfl, hcount, hblocks, htake⟩ := placesOf_of_appendGroups hlt hrestored
  rw [List.nil_append]
  have hsize : matchedIndices.length = words.length + 1 := by
    have hlengths := congrArg List.length hkeys
    simp only [List.length_map, List.length_append, List.length_singleton] at hlengths
    exact hlengths
  constructor
  · rintro ⟨phrase', hphrase', hwords⟩
    have hne : blocks ≠ [] := by
      rintro rfl
      cases hphrase'
    obtain ⟨idx', checksum', hidx', hpicked'⟩ := exists_checksum hdistinct hne
    rw [bytesToWords_flatten hselect hblocks hne (hcount ▸ hgroups) hidx' hpicked'] at hphrase'
    cases hphrase'
    have hlengths := congrArg List.length hwords
    rw [split_wordsOf hpicked', List.length_map, List.length_map, List.length_append, List.length_append,
      length_wordsOf, List.length_singleton, List.length_singleton] at hlengths
    omega
  · intro hthree
    have hall : 3 * (words.length / 3) = words.length := Nat.mul_div_cancel' (Nat.dvd_of_mod_eq_zero hthree)
    have hne : blocks ≠ [] := by
      rintro rfl
      rw [List.length_nil] at hcount
      omega
    have hwords : (language.wordsOf blocks).map language.key = words.map language.key := by
      have htaken := congrArg (List.take words.length) hkeys
      rw [← List.map_take, ← List.map_take, ← List.map_take, List.take_left] at htaken
      rw [hall] at htake
      rw [← htaken, htake]
      rfl
    have hidx' := (Language.createChecksumIndex_congr hwords).trans hidx
    have hpicked' : ((language.wordsOf blocks).map language.key)[idx]? = some (some key) := by
      rw [hwords, List.getElem?_map, hpicked, Option.map_some, hkey]
    rw [List.getElem?_map] at hpicked'
    obtain ⟨checksum', hchecksum', hkey''⟩ := Option.map_eq_some_iff.mp hpicked'
    refine ⟨_, bytesToWords_flatten hselect hblocks hne (hcount ▸ hgroups) hidx' hchecksum', ?_⟩
    rw [split_wordsOf hchecksum', List.map_append, List.map_append, hwords, List.map_singleton, List.map_singleton, hkey'',
      hkey', of_decide_eq_true hsame.symm]

end

section

def plainLibrary : Library where
  towlower := id
  crc32 := fun _ => 0

def letter (k : ℕ) : UInt8 := UInt8.ofNat (97 + k % 12)

def letterWord (i : ℕ) : Bytes := [letter (i / 144), letter (i / 12), letter i]

theorem letter_ascii (k : ℕ) : isSpace (letter k) = false ∧ letter k &&& 0x80 = 0 ∧ utf8Encode (letter k).toNat = some [letter k] := by
  have hall : ∀ r < 12, isSpace (UInt8.ofNat (97 + r)) = false ∧ UInt8.ofNat (97 + r) &&& 0x80 = 0 ∧
      utf8Encode (UInt8.ofNat (97 + r)).toNat = some [UInt8.ofNat (97 + r)] := by decide
  exact hall _ (Nat.mod_lt _ (by decide))

theorem letter_injective {j k : ℕ} (h : letter j = letter k) : j % 12 = k % 12 := by
  have hall : ∀ r < 12, ∀ t < 12, UInt8.ofNat (97 + r) = UInt8.ofNat (97 + t) → r = t := by decide
  exact hall _ (Nat.mod_lt _ (by decide)) _ (Nat.mod_lt _ (by decide)) h

theorem canonical_letterWord (i : ℕ) : plainLibrary.canonical (letterWord i) = some (letterWord i) := by
  have hcons (k : ℕ) (s : Bytes) : utf8Canonical id (letter k :: s) = (utf8Canonical id s).map (letter k :: ·) := by
    obtain ⟨-, hbit, hencode⟩ := letter_ascii k
    rw [utf8Canonical.eq_def]
    dsimp only
    rw [if_pos hbit, id_eq, hencode]
    cases utf8Canonical id s with
    | none => rfl
    | some rest => rfl
  rw [Library.canonical, letterWord]
  change utf8Canonical id _ = _
  rw [hcons, hcons, hcons]
  rfl

theorem trim_letterWord (i : ℕ) : trim 3 (letterWord i) = letterWord i := if_neg (Nat.lt_irrefl 3)

def letterWords : List Bytes := (List.range nwords).map letterWord

def letters : Language plainLibrary where
  languageName := "letters".toUTF8.toList
  englishLanguageName := "letters".toUTF8.toList
  wordList := letterWords
  uniquePrefixLength := 3
  length_eq := by rw [letterWords, List.length_map, List.length_range]
  isWord := by
    intro word hword
    obtain ⟨i, -, rfl⟩ := List.mem_map.mp hword
    refine ⟨List.cons_ne_nil _ _, ?_⟩
    rw [letterWord, List.all_cons, List.all_cons, List.all_cons, (letter_ascii _).1, (letter_ascii _).1, (letter_ascii _).1]
    rfl
  isText := by
    intro word hword
    obtain ⟨i, -, rfl⟩ := List.mem_map.mp hword
    rw [trim_letterWord, canonical_letterWord]
    exact ⟨rfl, rfl⟩

theorem letters_wordList : letters.wordList = letterWords := by
  rw [letters]

theorem key_letterWord (i : ℕ) : letters.key (letterWord i) = some (letterWord i) := by
  rw [Language.key, ← trim_eq]
  change plainLibrary.canonical (trim 3 (letterWord i)) = _
  rw [trim_letterWord, canonical_letterWord]

theorem letters_distinctPrefixes : letters.DistinctPrefixes := by
  have hwords : letterWords.map letters.key = (List.range nwords).map fun i => letters.key (letterWord i) := List.map_map ..
  rw [Language.DistinctPrefixes, letters_wordList, hwords]
  refine List.Nodup.map_on ?_ List.nodup_range
  intro i hi j hj h
  rw [List.mem_range] at hi hj
  rw [key_letterWord, key_letterWord, Option.some_inj, letterWord, letterWord, List.cons_eq_cons, List.cons_eq_cons,
    List.cons_eq_cons] at h
  have hhigh := letter_injective h.1
  have hmiddle := letter_injective h.2.1
  have hlow := letter_injective h.2.2.1
  simp only [nwords] at hi hj
  omega

theorem wordAt_letters {i : ℕ} (h : i < nwords) : letters.wordAt i = letterWord i := by
  rw [Language.wordAt, letters_wordList, letterWords, List.getD_eq_getElem?_getD, List.getElem?_map, List.getElem?_range h]
  rfl

theorem matchWord_letters {i : ℕ} (h : i < nwords) : letters.matchWord true (letterWord i) = .ok (some i) := by
  rw [← wordAt_letters h]
  exact letters_distinctPrefixes.matchWord_wordAt h

theorem createChecksumIndex_letters {words : List Bytes} (hne : words ≠ [])
    (h : ∀ word ∈ words, ∃ i, letters.matchWord true word = .ok (some i)) : letters.createChecksumIndex words = .ok 0 := by
  obtain ⟨trimmed, htrimmed⟩ := Language.exists_trimmedWords h
  have hlength : words.length ≠ 0 := fun hzero => hne (List.length_eq_zero_iff.mp hzero)
  rw [Language.createChecksumIndex, htrimmed]
  refine (if_neg hlength).trans ?_
  change Except.ok (0 % words.length) = _
  rw [Nat.zero_mod]

theorem findSeedLanguage_letters (i : ℕ) (indices : List ℕ) (h : ∀ j ∈ i :: indices, j < nwords) :
    findSeedLanguage ((i :: indices).map letterWord ++ [letterWord i]) true [letters] none =
        .ok (some (letters, i :: indices ++ [i])) ∧
      letters.checksumTest ((i :: indices).map letterWord ++ [letterWord i]) = .ok true := by
  have hmatch : letters.matchWords true ((i :: indices).map letterWord ++ [letterWord i]) = .ok (some (i :: indices ++ [i])) := by
    have hlast : ((i :: indices).map letterWord ++ [letterWord i]) = (i :: indices ++ [i]).map letterWord := by
      rw [List.map_append]
      rfl
    rw [hlast, Language.matchWords_eq_some, List.forall₂_map_left_iff, List.forall₂_same]
    intro j hj
    rcases List.mem_append.mp hj with hj | hj
    · exact matchWord_letters (h j hj)
    · rw [List.mem_singleton.mp hj]
      exact matchWord_letters (h i List.mem_cons_self)
  have hidx : letters.createChecksumIndex ((i :: indices).map letterWord) = .ok 0 := by
    refine createChecksumIndex_letters (List.cons_ne_nil _ _) fun word hword => ?_
    obtain ⟨j, hj, rfl⟩ := List.mem_map.mp hword
    exact ⟨j, matchWord_letters (h j hj)⟩
  have htest : letters.checksumTest ((i :: indices).map letterWord ++ [letterWord i]) = .ok true :=
    Language.checksumTest_append.mpr
      ⟨0, letterWord i, _, _, hidx, rfl, key_letterWord i, key_letterWord i, (decide_eq_true rfl).symm⟩
  refine ⟨?_, htest⟩
  rw [findSeedLanguage, bind_eq_ok]
  exact ⟨_, hmatch, bind_eq_ok.mpr ⟨true, htest, rfl⟩⟩

end

theorem select_letters : selectLanguage [letters] letters.languageName = some letters := by
  simp [selectLanguage]

def leftOverPhrase : Bytes := "aaa aaa aaa aab aaa".toUTF8.toList

theorem split_leftOverPhrase : split leftOverPhrase = [0, 0, 0, 1].map letterWord ++ [letterWord 0] := by decide +kernel

theorem hasChecksum_leftOverPhrase : hasChecksum 0 (split leftOverPhrase).length = true := by
  rw [split_leftOverPhrase]
  rfl

theorem leftOverPhrase_accepted :
    wordsToBytes [letters] leftOverPhrase [] 0 false = .ok (some ([0, 0, 0, 0], letters)) := by
  obtain ⟨hfound, htest⟩ := findSeedLanguage_letters 0 [0, 0, 1] (by decide)
  refine (wordsToBytes_eq_some hasChecksum_leftOverPhrase).mpr ⟨rfl, [0, 0, 0, 1, 0], ?_⟩
  rw [split_leftOverPhrase]
  exact ⟨hfound, htest, by decide +kernel⟩

end Velkavo.Mnemonics
