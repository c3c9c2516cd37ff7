import Velkavo.Mnemonics.ElectrumWords

/-! Words for bytes and back: the fields of a phrase, three places for four bytes, and the checksum. -/

namespace Velkavo.Mnemonics

open ByteCodec Effects

section

theorem splitLoop_append (fields : List Bytes) {spacePrev : Bool} {opened : List Bytes} (s : Bytes)
    (h : spacePrev = false → opened ≠ []) :
    splitLoop spacePrev (fields ++ opened) s = fields ++ splitLoop spacePrev opened s := by
  induction s generalizing spacePrev opened with
  | nil => rfl
  | cons c s ih =>
    rw [splitLoop, splitLoop]
    split_ifs with hspace hprev
    · exact ih fun hfalse => absurd hfalse (by decide)
    · rw [List.append_assoc]
      exact ih fun _ => by simp
    · have hne : opened ≠ [] := h (Bool.eq_false_iff.mpr hprev)
      rw [List.dropLast_append_of_ne_nil hne, List.getLast?_append_of_ne_nil _ hne, List.append_assoc]
      exact ih fun _ => by simp

theorem splitLoop_word {word : Bytes} (h : word.all (fun c => !isSpace c) = true) (opened s : Bytes) :
    splitLoop false [opened] (word ++ s) = splitLoop false [opened ++ word] s := by
  induction word generalizing opened with
  | nil => rw [List.nil_append, List.append_nil]
  | cons c word ih =>
    rw [List.all_cons, Bool.and_eq_true, Bool.not_eq_true'] at h
    rw [List.cons_append, splitLoop, h.1, if_neg Bool.false_ne_true, if_neg Bool.false_ne_true]
    change splitLoop false [opened ++ [c]] (word ++ s) = _
    rw [ih h.2, List.append_assoc]
    rfl

theorem splitLoop_field {word : Bytes} (hne : word ≠ []) (h : word.all (fun c => !isSpace c) = true) (s : Bytes) :
    splitLoop true [] (word ++ s) = splitLoop false [word] s := by
  obtain ⟨c, rest, rfl⟩ := List.exists_cons_of_ne_nil hne
  rw [List.all_cons, Bool.and_eq_true, Bool.not_eq_true'] at h
  rw [List.cons_append, splitLoop, h.1, if_neg Bool.false_ne_true, if_pos rfl]
  exact splitLoop_word h.2 [c] s

theorem split_phrase {words : List Bytes} {last : Bytes}
    (h : ∀ word ∈ words ++ [last], word ≠ [] ∧ word.all (fun c => !isSpace c) = true) :
    split (words.flatMap (· ++ [0x20]) ++ last) = words ++ [last] := by
  induction words with
  | nil =>
    obtain ⟨hne, hall⟩ := h last (List.mem_singleton.mpr rfl)
    have hfield := splitLoop_field hne hall []
    rw [List.append_nil] at hfield
    exact hfield
  | cons word words ih =>
    obtain ⟨⟨hne, hall⟩, hrest⟩ := List.forall_mem_cons.mp h
    rw [List.flatMap_cons, List.append_assoc, List.append_assoc, split, splitLoop_field hne hall]
    change splitLoop true [word] (words.flatMap (· ++ [0x20]) ++ last) = _
    have happend := @splitLoop_append [word] true [] (words.flatMap (· ++ [0x20]) ++ last) fun hfalse => by cases hfalse
    rw [List.append_nil] at happend
    rw [happend]
    exact congrArg (word :: ·) (ih hrest)

end

section

variable {w₀ w₁ w₂ w₃ : ℕ}

theorem lt_of_mem_encodeTriple {i : ℕ} (h : i ∈ encodeTriple w₀) : i < nwords := by
  simp only [encodeTriple, List.mem_cons, List.not_mem_nil, or_false] at h
  rcases h with rfl | rfl | rfl <;> exact Nat.mod_lt _ (by decide)

theorem place_of_difference {x y : ℕ} (hx : x ≤ nwords) (hy : y < nwords) :
    ((nwords - x + y) % nwords + x) % nwords = y := by
  rw [Nat.mod_add_mod, Nat.add_right_comm, Nat.sub_add_cancel hx, Nat.add_mod_left, Nat.mod_eq_of_lt hy]

theorem difference_of_place {x : ℕ} (a : ℕ) (hx : x ≤ nwords) :
    (nwords - x + (a + x) % nwords) % nwords = a % nwords := by
  rw [Nat.add_mod_mod, Nat.add_comm a, ← Nat.add_assoc, Nat.sub_add_cancel hx, Nat.add_mod_left]

theorem decodeTriple_encodeTriple (h : w₀ < 2 ^ 32) :
    decodeTriple (w₀ % nwords) ((w₀ / nwords + w₀ % nwords) % nwords)
      ((w₀ / nwords / nwords + (w₀ / nwords + w₀ % nwords) % nwords) % nwords) = some w₀ := by
  have hpos : 0 < nwords := by decide
  have hlarge : w₀ / nwords / nwords < nwords := by
    rw [Nat.div_div_eq_div_mul]
    exact Nat.div_lt_of_lt_mul (h.trans (by decide))
  have hplaces : w₀ % nwords + nwords * (w₀ / nwords % nwords) + nwords * nwords * (w₀ / nwords / nwords) = w₀ := by
    rw [Nat.add_assoc, Nat.mul_assoc, ← Nat.mul_add, Nat.mod_add_div, Nat.mod_add_div]
  rw [decodeTriple, difference_of_place _ (Nat.mod_lt _ hpos).le, difference_of_place _ (Nat.mod_lt _ hpos).le,
    Nat.mod_eq_of_lt hlarge, hplaces, Nat.mod_eq_of_lt h]
  exact if_pos rfl

theorem fits_of_residue {a b : ℕ} (ha : a < nwords) (hb : b < nwords)
    (h : (w₁ + nwords * a + nwords * nwords * b) % 2 ^ 32 % nwords = w₁) :
    w₁ + nwords * a + nwords * nwords * b < 2 ^ 32 := by
  by_contra hover
  have hsum : w₁ + nwords * a + nwords * nwords * b = w₁ + nwords * (a + nwords * b) := by
    rw [Nat.mul_add, Nat.mul_assoc, Nat.add_assoc]
  have hbound : a + nwords * b < nwords * nwords := by
    calc a + nwords * b < nwords * (b + 1) := by rw [Nat.mul_succ, Nat.add_comm]; exact Nat.add_lt_add_left ha _
      _ ≤ nwords * nwords := Nat.mul_le_mul_left _ hb
  rw [hsum] at h hover
  generalize a + nwords * b = c at h hover hbound
  clear hsum ha hb
  simp only [nwords] at h hover hbound
  -- 1626 ^ 3 is below 2 ^ 33, so that 2 ^ 32 is taken off once, and it leaves 1408 modulo 1626
  have honce : (w₁ + 1626 * c) % 2 ^ 32 = w₁ + 1626 * c - 2 ^ 32 := by
    rw [Nat.mod_eq_sub_mod (Nat.le_of_not_lt hover)]
    exact Nat.mod_eq_of_lt (by omega)
  rw [honce] at h
  clear honce hbound
  omega

theorem encodeTriple_of_decodeTriple (h₁ : w₁ < nwords) (h₂ : w₂ < nwords) (h₃ : w₃ < nwords)
    (h : decodeTriple w₁ w₂ w₃ = some w₀) : encodeTriple w₀ = [w₁, w₂, w₃] ∧ w₀ < 2 ^ 32 := by
  rw [decodeTriple] at h
  split_ifs at h with hresidue
  cases h
  refine ⟨?_, Nat.mod_lt _ (by decide)⟩
  have hpos : 0 < nwords := by decide
  have ha : (nwords - w₁ + w₂) % nwords < nwords := Nat.mod_lt _ hpos
  have hb : (nwords - w₂ + w₃) % nwords < nwords := Nat.mod_lt _ hpos
  have ha' := place_of_difference h₁.le h₂
  have hb' := place_of_difference h₂.le h₃
  generalize (nwords - w₁ + w₂) % nwords = a at *
  generalize (nwords - w₂ + w₃) % nwords = b at *
  have hfits := fits_of_residue ha hb hresidue
  have hdiv : (w₁ + nwords * a + nwords * nwords * b) / nwords = a + nwords * b := by
    rw [Nat.add_assoc, Nat.mul_assoc, ← Nat.mul_add, Nat.add_mul_div_left _ _ hpos, Nat.div_eq_of_lt h₁, Nat.zero_add]
  have hdiv' : (a + nwords * b) / nwords = b := by
    rw [Nat.add_mul_div_left _ _ hpos, Nat.div_eq_of_lt ha, Nat.zero_add]
  have hmod : (a + nwords * b + w₁) % nwords = w₂ := by
    rw [Nat.add_right_comm, Nat.add_mul_mod_self_left, ha']
  rw [Nat.mod_eq_of_lt hfits] at hresidue ⊢
  rw [encodeTriple, hresidue, hdiv, hdiv', hmod, Nat.add_comm b, Nat.add_comm w₂ b, hb']

def placesOf (blocks : List Bytes) : List ℕ := blocks.flatMap fun block => encodeTriple (ofLittleEndian block)

theorem length_placesOf (blocks : List Bytes) : (placesOf blocks).length = 3 * blocks.length := by
  induction blocks with
  | nil => rfl
  | cons block blocks ih =>
    rw [placesOf, List.flatMap_cons, List.length_append, ← placesOf, ih, List.length_cons]
    change 3 + _ = _
    omega

theorem lt_of_mem_placesOf {blocks : List Bytes} {i : ℕ} (h : i ∈ placesOf blocks) : i < nwords := by
  obtain ⟨block, -, hi⟩ := List.mem_flatMap.mp h
  exact lt_of_mem_encodeTriple hi

theorem appendGroups_placesOf {blocks : List Bytes} (h : ∀ block ∈ blocks, block.length = 4) (rest : List ℕ) (dst : Bytes) :
    appendGroups blocks.length (placesOf blocks ++ rest) dst = .ok (some (dst ++ blocks.flatten)) := by
  induction blocks generalizing dst with
  | nil =>
    rw [List.flatten_nil, List.append_nil]
    rfl
  | cons block blocks ih =>
    obtain ⟨hblock, hblocks⟩ := List.forall_mem_cons.mp h
    have hlt : ofLittleEndian block < 2 ^ 32 := by
      have hbound := ofLittleEndian_lt block
      rw [hblock] at hbound
      exact hbound
    have hback : littleEndian 4 (ofLittleEndian block) = block := by
      rw [← hblock]
      exact littleEndian_ofLittleEndian block
    rw [placesOf, List.flatMap_cons, ← placesOf, encodeTriple, List.length_cons]
    change appendGroups (blocks.length + 1) (_ :: _ :: _ :: (placesOf blocks ++ rest)) dst = _
    rw [appendGroups, decodeTriple_encodeTriple hlt]
    change appendGroups blocks.length (placesOf blocks ++ rest) _ = _
    rw [hback, ih hblocks, List.flatten_cons, List.append_assoc]

theorem placesOf_of_appendGroups {groups : ℕ} {matchedIndices : List ℕ} {dst data : Bytes}
    (hlt : ∀ i ∈ matchedIndices, i < nwords) (h : appendGroups groups matchedIndices dst = .ok (some data)) :
    ∃ blocks : List Bytes, data = dst ++ blocks.flatten ∧ blocks.length = groups ∧
      (∀ block ∈ blocks, block.length = 4) ∧ matchedIndices.take (3 * groups) = placesOf blocks := by
  induction groups generalizing matchedIndices dst with
  | zero =>
    rw [appendGroups] at h
    cases h
    exact ⟨[], (List.append_nil _).symm, rfl, fun block hblock => absurd hblock List.not_mem_nil, rfl⟩
  | succ groups ih =>
    rw [appendGroups.eq_def] at h
    split at h
    · rename_i hzero
      cases hzero
    · rename_i n w₁ w₂ w₃ rest _ hsucc
      cases hsucc
      simp only [List.forall_mem_cons] at hlt
      obtain ⟨h₁, h₂, h₃, hrest⟩ := hlt
      split at h
      · cases h
      · rename_i w₀ hdecode
        obtain ⟨hencode, hsmall⟩ := encodeTriple_of_decodeTriple h₁ h₂ h₃ hdecode
        obtain ⟨blocks, rfl, rfl, hblocks, htake⟩ := ih hrest h
        have hvalue : ofLittleEndian (littleEndian 4 w₀) = w₀ := ofLittleEndian_littleEndian 4 w₀ hsmall
        refine ⟨littleEndian 4 w₀ :: blocks, by rw [List.flatten_cons, List.append_assoc], rfl,
          List.forall_mem_cons.mpr ⟨littleEndian_length 4 w₀, hblocks⟩, ?_⟩
        rw [placesOf, List.flatMap_cons, ← placesOf, hvalue, hencode, ← htake, Nat.mul_add]
        rfl
    · cases h

end

section

variable {lib : Library} {language : Language lib}

theorem canonicalKey_eq_ok {word key : Bytes} : canonicalKey lib word = .ok key ↔ lib.canonical word = some key := by
  rw [canonicalKey]
  cases lib.canonical word with
  | none => exact iff_of_false (fun h => by cases h) (fun h => by cases h)
  | some k =>
    constructor
    · intro h
      cases h
      rfl
    · intro h
      cases h
      rfl

theorem canonicalKey_congr {word word' : Bytes} (h : lib.canonical word = lib.canonical word') :
    canonicalKey lib word = canonicalKey lib word' := by
  rw [canonicalKey, canonicalKey, h]

namespace Language

variable {i : ℕ}

theorem matchWord_eq_some {word : Bytes} :
    language.matchWord true word = .ok (some i) ↔
      ∃ key first, language.key word = some key ∧ language.findTrimmed key = some (first, i) := by
  rw [matchWord, if_pos rfl, bind_eq_ok]
  constructor
  · rintro ⟨key, hkey, hfind⟩
    obtain ⟨⟨first, j⟩, hfound, hj⟩ := Option.map_eq_some_iff.mp (Except.ok.inj hfind)
    cases hj
    exact ⟨key, first, canonicalKey_eq_ok.mp hkey, hfound⟩
  · rintro ⟨key, first, hkey, hfound⟩
    refine ⟨key, canonicalKey_eq_ok.mpr hkey, ?_⟩
    rw [hfound]
    rfl

theorem getElem?_wordAt (h : i < nwords) : language.wordList[i]? = some (language.wordAt i) := by
  rw [← language.length_eq] at h
  rw [wordAt, List.getD_eq_getElem?_getD, List.getElem?_eq_getElem h]
  rfl

theorem wordAt_mem {i : ℕ} (h : i < nwords) : language.wordAt i ∈ language.wordList :=
  List.mem_of_getElem? (getElem?_wordAt h)

theorem key_wordAt_of_matchWord {word : Bytes} (h : language.matchWord true word = .ok (some i)) :
    i < nwords ∧ language.key (language.wordAt i) = language.key word := by
  obtain ⟨key, first, hkey, hfound⟩ := matchWord_eq_some.mp h
  have hlt := lt_of_findTrimmed hfound
  obtain ⟨listed, hlisted, hsame⟩ := findTrimmed_eq_some hfound
  rw [getElem?_wordAt hlt] at hlisted
  cases hlisted
  exact ⟨hlt, hsame.trans hkey.symm⟩

theorem DistinctPrefixes.matchWord_wordAt (h : language.DistinctPrefixes) (hi : i < nwords) :
    language.matchWord true (language.wordAt i) = .ok (some i) := by
  obtain ⟨key, hkey⟩ := Option.isSome_iff_exists.mp (isSome_key (@wordAt_mem lib language _ hi))
  exact matchWord_eq_some.mpr ⟨key, _, hkey, h.findTrimmed (getElem?_wordAt hi) hkey⟩

theorem matchWords_eq_some {hasChecksum : Bool} {seed : List Bytes} {indices : List ℕ} :
    language.matchWords hasChecksum seed = .ok (some indices) ↔
      List.Forall₂ (fun word i => language.matchWord hasChecksum word = .ok (some i)) seed indices := by
  induction seed generalizing indices with
  | nil =>
    rw [matchWords, List.forall₂_nil_left_iff]
    constructor
    · intro h
      cases h
      rfl
    · intro h
      rw [h]
      rfl
  | cons word seed ih =>
    rw [matchWords, bind_eq_ok, List.forall₂_cons_left_iff]
    constructor
    · rintro ⟨found, hfound, h⟩
      cases found with
      | none => cases h
      | some i =>
        obtain ⟨rest, hrest, h⟩ := bind_eq_ok.mp h
        obtain ⟨tail, htail, hcons⟩ := Option.map_eq_some_iff.mp (Except.ok.inj h)
        rw [htail] at hrest
        exact ⟨i, tail, hfound, ih.mp hrest, hcons.symm⟩
    · rintro ⟨i, tail, hi, htail, rfl⟩
      exact ⟨some i, hi, bind_eq_ok.mpr ⟨some tail, ih.mpr htail, rfl⟩⟩

theorem exists_of_matchWords {hasChecksum : Bool} {seed : List Bytes} {indices : List ℕ}
    (h : language.matchWords hasChecksum seed = .ok (some indices)) :
    ∀ word ∈ seed, ∃ i, language.matchWord hasChecksum word = .ok (some i) := by
  induction matchWords_eq_some.mp h with
  | nil => exact fun word hword => absurd hword List.not_mem_nil
  | cons hword hrest ih => exact List.forall_mem_cons.mpr ⟨⟨_, hword⟩, ih (matchWords_eq_some.mpr hrest)⟩

end Language

end

section

variable {lib : Library} {language : Language lib}

namespace Language

variable {words : List Bytes}

theorem trimmedWords_congr {words' : List Bytes} (h : words.map language.key = words'.map language.key) :
    language.trimmedWords words = language.trimmedWords words' := by
  induction words generalizing words' with
  | nil => rw [List.map_nil, eq_comm, List.map_eq_nil_iff] at h; rw [h]
  | cons word words ih =>
    obtain ⟨word', rest, rfl, hword, hrest⟩ := List.map_eq_cons_iff.mp h.symm
    rw [trimmedWords, trimmedWords, canonicalKey_congr hword, ih hrest.symm]

theorem createChecksumIndex_congr {words' : List Bytes} (h : words.map language.key = words'.map language.key) :
    language.createChecksumIndex words = language.createChecksumIndex words' := by
  have hlength : words.length = words'.length := by
    rw [← List.length_map language.key, h, List.length_map]
  rw [createChecksumIndex, createChecksumIndex, trimmedWords_congr h, hlength]

theorem exists_trimmedWords (h : ∀ word ∈ words, ∃ i, language.matchWord true word = .ok (some i)) :
    ∃ trimmed, language.trimmedWords words = .ok trimmed := by
  induction words with
  | nil => exact ⟨[], rfl⟩
  | cons word words ih =>
    obtain ⟨⟨i, hi⟩, hwords⟩ := List.forall_mem_cons.mp h
    obtain ⟨key, first, hkey, hfound⟩ := matchWord_eq_some.mp hi
    obtain ⟨rest, hrest⟩ := ih hwords
    refine ⟨first ++ rest, ?_⟩
    rw [trimmedWords, bind_eq_ok]
    refine ⟨key, canonicalKey_eq_ok.mpr hkey, ?_⟩
    rw [hfound, hrest]
    rfl

theorem exists_createChecksumIndex (hne : words ≠ [])
    (h : ∀ word ∈ words, ∃ i, language.matchWord true word = .ok (some i)) :
    ∃ idx, language.createChecksumIndex words = .ok idx ∧ idx < words.length := by
  obtain ⟨trimmed, htrimmed⟩ := exists_trimmedWords h
  have hlength : words.length ≠ 0 := fun hzero => hne (List.length_eq_zero_iff.mp hzero)
  refine ⟨(lib.crc32 trimmed).toNat % words.length, ?_, Nat.mod_lt _ (Nat.pos_of_ne_zero hlength)⟩
  rw [createChecksumIndex, htrimmed]
  exact if_neg hlength

theorem checksumTest_append {last : Bytes} {answer : Bool} :
    language.checksumTest (words ++ [last]) = .ok answer ↔
      ∃ idx checksum key key', language.createChecksumIndex words = .ok idx ∧ words[idx]? = some checksum ∧
        language.key checksum = some key ∧ language.key last = some key' ∧ answer = decide (key = key') := by
  rw [checksumTest, List.getLast?_concat, List.dropLast_concat]
  change (language.createChecksumIndex words >>= _) = _ ↔ _
  rw [bind_eq_ok]
  constructor
  · rintro ⟨idx, hidx, h⟩
    split at h
    · cases h
    · rename_i checksum hchecksum
      rw [trim_eq, trim_eq, bind_eq_ok] at h
      obtain ⟨key, hkey, h⟩ := h
      rw [bind_eq_ok] at h
      obtain ⟨key', hkey', h⟩ := h
      exact ⟨idx, checksum, key, key', hidx, hchecksum, canonicalKey_eq_ok.mp hkey, canonicalKey_eq_ok.mp hkey',
        (Except.ok.inj h).symm⟩
  · rintro ⟨idx, checksum, key, key', hidx, hchecksum, hkey, hkey', rfl⟩
    refine ⟨idx, hidx, ?_⟩
    rw [hchecksum]
    change (canonicalKey lib (trim language.uniquePrefixLength checksum) >>= _) = _
    rw [trim_eq, trim_eq, canonicalKey_eq_ok.mpr hkey, canonicalKey_eq_ok.mpr hkey']
    rfl

end Language

end

end Velkavo.Mnemonics
