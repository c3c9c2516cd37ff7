import Velkavo.ByteCodec.Utf8

/-! Text broken into lines of a given display width. -/

namespace Velkavo.Common

open ByteCodec Utf8

variable (wcwidth : ℕ → ℤ)

def prefixLoop (s : Bytes) : ℕ → Bytes → Bytes → ℕ → ℕ → Bytes × ℕ
  | _, [], sc, _, sw => (sc, sw)
  | skip + 1, _ :: ptr, sc, columns, sw => prefixLoop s skip ptr sc columns sw
  | 0, c :: ptr, sc, columns, sw =>
    match decode ptr.length (c :: ptr) with
    | .error _ => (s, s.length)
    | .ok (cp, more, _) =>
      let sc := sc ++ encodeAs cp more
      let cpw := wcwidth cp
      if cpw > 0 then
        -- the comparison is one of 32-bit integers
        if cpw > Int.bmod columns (2 ^ 32) then (sc, sw)
        else prefixLoop s more ptr sc (columns - cpw.toNat) (sw + cpw.toNat)
      else prefixLoop s more ptr sc columns sw

def getStringPrefixByWidth (s : Bytes) (columns : ℕ) : Bytes × ℕ := prefixLoop wcwidth s 0 s [] columns 0

def getStringWidth (s : Bytes) : ℕ := (getStringPrefixByWidth wcwidth s 999999999).2

section

variable {α : Type} [DecidableEq α] (sep : α)

def splitLoop : Bool → List α → List α → List (List α)
  | _, word, [] => [word]
  | inRun, word, c :: s =>
    if c = sep then if inRun then splitLoop true word s else word :: splitLoop true [] s
    else splitLoop false (word ++ [c]) s

def splitRuns (s : List α) : List (List α) := splitLoop sep false [] s

def compressLoop : Bool → List α → List α
  | _, [] => []
  | inRun, c :: s =>
    if c = sep then if inRun then compressLoop true s else c :: compressLoop true s else c :: compressLoop false s

def compressRuns (s : List α) : List α := compressLoop sep false s

end

/-- A word that is not its own prefix is replaced by the prefix and the rest, and the prefix is looked at again. -/
def cutWords (columns : ℕ) : ℕ → List Bytes → Option (List Bytes)
  | _, [] => some []
  | 0, _ :: _ => none
  | rounds + 1, word :: words =>
    let piece := (getStringPrefixByWidth wcwidth word columns).1
    if piece = word then (word :: ·) <$> cutWords columns rounds words
    else cutWords columns rounds (piece :: word.drop piece.length :: words)

def fillLines (columns : ℕ) (line : Bytes × ℕ) : List Bytes → List (Bytes × ℕ)
  | [] => [line]
  | word :: words =>
    let wordLen := getStringWidth wcwidth word
    let lineLen := getStringWidth wcwidth line.1
    if lineLen > 0 ∧ lineLen + 1 + wordLen > columns then line :: fillLines columns (word, wordLen) words
    else if lineLen > 0 then fillLines columns (line.1 ++ 0x20 :: word, line.2 + 1 + wordLen) words
    else fillLines columns (line.1 ++ word, line.2 + wordLen) words

def splitLineByWidth (s : Bytes) (columns : ℕ) : Option (List (Bytes × ℕ)) :=
  let words := splitRuns 0x20 s
  fillLines wcwidth columns ([], 0) <$> cutWords wcwidth columns (words.map fun word => 2 * word.length + 1).sum words

def width (cps : List ℕ) : ℕ := (cps.map fun cp => (wcwidth cp).toNat).sum

def IsText (cps : List ℕ) : Prop := ∀ cp ∈ cps, cp ≤ maxCodePoint

def text (cps : List ℕ) : Bytes := cps.flatMap encode

def Shows (bytes : Bytes) (n : ℕ) : Prop := ∃ cps, IsText cps ∧ bytes = text cps ∧ n = width wcwidth cps

section

variable {α : Type} [DecidableEq α] {sep : α}

theorem splitLoop_ne_nil (inRun : Bool) (word s : List α) : splitLoop sep inRun word s ≠ [] := by
  induction s generalizing inRun word with
  | nil => exact List.cons_ne_nil _ _
  | cons c s ih =>
    rw [splitLoop]
    split_ifs
    · exact ih _ _
    · exact List.cons_ne_nil _ _
    · exact ih _ _

theorem intercalate_splitLoop (inRun : Bool) (word s : List α) :
    [sep].intercalate (splitLoop sep inRun word s) = word ++ compressLoop sep inRun s := by
  induction s generalizing inRun word with
  | nil => simp [splitLoop, compressLoop]
  | cons c s ih =>
    rw [splitLoop, compressLoop]
    split_ifs with hc hrun
    · exact ih _ _
    · rw [List.intercalate_cons_of_ne_nil (splitLoop_ne_nil _ _ _), ih, hc]
      simp
    · rw [ih, List.append_assoc, List.singleton_append]

theorem splitLoop_append_of_notMem {inRun : Bool} {word l : List α} (hne : l ≠ []) (h : sep ∉ l) (s : List α) :
    splitLoop sep inRun word (l ++ s) = splitLoop sep false (word ++ l) s := by
  induction l generalizing inRun word with
  | nil => exact absurd rfl hne
  | cons c l ih =>
    have hc : c ≠ sep := fun heq => h (heq ▸ List.mem_cons_self)
    rw [List.cons_append, splitLoop, if_neg hc]
    cases l with
    | nil => rfl
    | cons d l =>
      rw [ih (List.cons_ne_nil _ _) (fun hmem => h (List.mem_cons_of_mem _ hmem)), List.append_assoc, List.singleton_append]

end

theorem text_cons (cp : ℕ) (cps : List ℕ) : text (cp :: cps) = encode cp ++ text cps := List.flatMap_cons

theorem text_append (l m : List ℕ) : text (l ++ m) = text l ++ text m := List.flatMap_append

theorem encode_ne_nil (cp : ℕ) : encode cp ≠ [] := by
  intro hnil
  have hlength := length_encode cp
  rw [hnil] at hlength
  cases hlength

theorem length_le_text (cps : List ℕ) : cps.length ≤ (text cps).length := by
  induction cps with
  | nil => exact le_rfl
  | cons cp cps ih =>
    rw [text_cons, List.length_append, length_encode, List.length_cons]
    omega

theorem IsText.append {l m : List ℕ} (hl : IsText l) (hm : IsText m) : IsText (l ++ m) :=
  List.forall_mem_append.mpr ⟨hl, hm⟩

theorem space_notMem_encode {cp : ℕ} (h : cp ≤ maxCodePoint) (hcp : cp ≠ 0x20) : (0x20 : UInt8) ∉ encode cp := by
  intro hmem
  by_cases hlt : cp < 128
  · rw [encode_ascii hlt, List.mem_singleton] at hmem
    have hnat := congrArg UInt8.toNat hmem
    rw [toNat_ofNat (by omega)] at hnat
    exact hcp hnat.symm
  · exact absurd (encode_high (by omega) h hmem) (by decide)

variable {cps : List ℕ}

theorem splitLoop_text (h : IsText cps) (inRun : Bool) (word : List ℕ) :
    splitLoop 0x20 inRun (text word) (text cps) = (splitLoop 0x20 inRun word cps).map text := by
  induction cps generalizing inRun word with
  | nil => rfl
  | cons cp cps ih =>
    obtain ⟨hcp, hcps⟩ := List.forall_mem_cons.mp h
    rw [text_cons, splitLoop]
    by_cases hspace : cp = 0x20
    · subst hspace
      rw [encode_ascii (by decide), List.singleton_append, splitLoop, if_pos rfl, if_pos (by decide)]
      cases inRun with
      | false => exact congrArg (text word :: ·) (ih hcps true [])
      | true => exact ih hcps true word
    · have hword : text word ++ encode cp = text (word ++ [cp]) := by
        rw [text_append, text_cons]
        exact congrArg _ (List.append_nil _).symm
      rw [splitLoop_append_of_notMem (encode_ne_nil cp) (space_notMem_encode hcp hspace), if_neg hspace, hword, ih hcps]

theorem isText_splitLoop {word : List ℕ} (hword : IsText word) (h : IsText cps) (inRun : Bool) :
    ∀ w ∈ splitLoop 0x20 inRun word cps, IsText w := by
  induction cps generalizing inRun word with
  | nil => exact List.forall_mem_singleton.mpr hword
  | cons cp cps ih =>
    obtain ⟨hcp, hcps⟩ := List.forall_mem_cons.mp h
    rw [splitLoop]
    split_ifs
    · exact ih hword hcps true
    · exact List.forall_mem_cons.mpr ⟨hword, ih (List.forall_mem_nil _) hcps true⟩
    · exact ih (hword.append (List.forall_mem_singleton.mpr hcp)) hcps false

def takeColumns (wcwidth : ℕ → ℤ) : ℕ → List ℕ → List ℕ
  | _, [] => []
  | columns, cp :: cps =>
    cp :: if columns < (wcwidth cp).toNat then [] else takeColumns wcwidth (columns - (wcwidth cp).toNat) cps

def fitWidth (wcwidth : ℕ → ℤ) : ℕ → List ℕ → ℕ
  | _, [] => 0
  | columns, cp :: cps =>
    if columns < (wcwidth cp).toNat then 0
    else (wcwidth cp).toNat + fitWidth wcwidth (columns - (wcwidth cp).toNat) cps

variable {wcwidth : ℕ → ℤ} {columns : ℕ}

theorem width_cons (cp : ℕ) (cps : List ℕ) : width wcwidth (cp :: cps) = (wcwidth cp).toNat + width wcwidth cps := by
  rw [width, List.map_cons, List.sum_cons, width]

theorem width_append (l m : List ℕ) : width wcwidth (l ++ m) = width wcwidth l + width wcwidth m := by
  rw [width, List.map_append, List.sum_append, width, width]

theorem takeColumns_of_le (h : width wcwidth cps ≤ columns) :
    takeColumns wcwidth columns cps = cps ∧ fitWidth wcwidth columns cps = width wcwidth cps := by
  induction cps generalizing columns with
  | nil => exact ⟨rfl, rfl⟩
  | cons cp cps ih =>
    rw [width_cons] at h ⊢
    obtain ⟨htake, hfit⟩ := @ih (columns - (wcwidth cp).toNat) (by omega)
    rw [takeColumns, fitWidth, if_neg (by omega), if_neg (by omega), htake, hfit]
    exact ⟨rfl, rfl⟩

theorem lt_width_takeColumns (h : columns < width wcwidth cps) :
    columns < width wcwidth (takeColumns wcwidth columns cps) := by
  induction cps generalizing columns with
  | nil => exact absurd h (Nat.not_lt_zero _)
  | cons cp cps ih =>
    rw [width_cons] at h
    rw [takeColumns, width_cons]
    split_ifs with hlt
    · omega
    · have hrest := @ih (columns - (wcwidth cp).toNat) (by omega)
      omega

theorem exists_takeColumns_append (columns : ℕ) (cps : List ℕ) :
    ∃ rest, cps = takeColumns wcwidth columns cps ++ rest ∧
      takeColumns wcwidth columns (takeColumns wcwidth columns cps) = takeColumns wcwidth columns cps := by
  induction cps generalizing columns with
  | nil => exact ⟨[], rfl, rfl⟩
  | cons cp cps ih =>
    rw [takeColumns]
    split_ifs with hlt
    · exact ⟨cps, rfl, by rw [takeColumns, if_pos hlt]⟩
    · obtain ⟨rest, hrest, htwice⟩ := ih (columns - (wcwidth cp).toNat)
      refine ⟨rest, ?_, ?_⟩
      · rw [List.cons_append, ← hrest]
      · rw [takeColumns, if_neg hlt, htwice]

theorem prefixLoop_skip (s l ptr sc : Bytes) (columns sw : ℕ) :
    prefixLoop wcwidth s l.length (l ++ ptr) sc columns sw = prefixLoop wcwidth s 0 ptr sc columns sw := by
  induction l with
  | nil => rfl
  | cons c l ih => rw [List.length_cons, List.cons_append, prefixLoop, ih]

theorem prefixLoop_encode (s : Bytes) {cp : ℕ} (h : cp ≤ maxCodePoint) (ptr sc : Bytes) (hcolumns : columns < 2 ^ 31) (sw : ℕ) :
    prefixLoop wcwidth s 0 (encode cp ++ ptr) sc columns sw =
      if columns < (wcwidth cp).toNat then (sc ++ encode cp, sw)
      else prefixLoop wcwidth s 0 ptr (sc ++ encode cp) (columns - (wcwidth cp).toNat) (sw + (wcwidth cp).toNat) := by
  obtain ⟨c, l, hencode⟩ := List.exists_cons_of_ne_nil (encode_ne_nil cp)
  have hlength := length_encode cp
  rw [hencode, List.length_cons, Nat.add_right_cancel_iff] at hlength
  have hdecode := decode_encode h ptr
  rw [hencode, List.cons_append, ← hlength, ← List.length_append] at hdecode
  have hbmod : Int.bmod columns (2 ^ 32) = columns := Int.bmod_eq_of_le (by omega) (by omega)
  have hsc : encodeAs cp l.length = c :: l := by rw [hlength, ← hencode, encode]
  rw [hencode, List.cons_append, prefixLoop, hdecode]
  simp only [hbmod, hsc, prefixLoop_skip]
  by_cases hpos : wcwidth cp > 0
  · rw [if_pos hpos]
    by_cases hlt : columns < (wcwidth cp).toNat
    · rw [if_pos hlt, if_pos (by omega)]
    · rw [if_neg hlt, if_neg (by omega)]
  · have hzero : (wcwidth cp).toNat = 0 := Int.toNat_of_nonpos (by omega)
    rw [if_neg hpos, hzero, if_neg (Nat.not_lt_zero _)]
    rfl

theorem prefixLoop_text (s : Bytes) (h : IsText cps) (hcolumns : columns < 2 ^ 31) (sc : Bytes) (sw : ℕ) :
    prefixLoop wcwidth s 0 (text cps) sc columns sw =
      (sc ++ text (takeColumns wcwidth columns cps), sw + fitWidth wcwidth columns cps) := by
  induction cps generalizing columns sc sw with
  | nil => exact congrArg (·, sw) (List.append_nil sc).symm
  | cons cp cps ih =>
    obtain ⟨hcp, hcps⟩ := List.forall_mem_cons.mp h
    rw [text_cons, prefixLoop_encode s hcp _ _ hcolumns, takeColumns, fitWidth, text_cons]
    split_ifs with hlt
    · exact congrArg (sc ++ ·, sw) (List.append_nil _).symm
    · rw [ih hcps (by omega), List.append_assoc, Nat.add_assoc]

theorem getStringPrefixByWidth_text (h : IsText cps) (hcolumns : columns < 2 ^ 31) :
    getStringPrefixByWidth wcwidth (text cps) columns =
      (text (takeColumns wcwidth columns cps), fitWidth wcwidth columns cps) := by
  rw [getStringPrefixByWidth, prefixLoop_text _ h hcolumns, List.nil_append, Nat.zero_add]

theorem getStringWidth_text (h : IsText cps) (hwidth : width wcwidth cps ≤ 999999999) :
    getStringWidth wcwidth (text cps) = width wcwidth cps := by
  rw [getStringWidth, getStringPrefixByWidth_text h (by decide), (takeColumns_of_le hwidth).2]

structure Pieces (wcwidth : ℕ → ℤ) (columns : ℕ) (word : List ℕ) (pieces : List (List ℕ)) : Prop where
  isText : ∀ piece ∈ pieces, IsText piece
  fits : width wcwidth word ≤ columns → pieces = [word]
  wide : columns < width wcwidth word → ∃ piece ∈ pieces, columns < width wcwidth piece

theorem cutWords_word (hcolumns : columns < 2 ^ 31) {word : List ℕ} (h : IsText word) :
    ∃ pieces steps, Pieces wcwidth columns word pieces ∧ steps ≤ 2 * word.length + 1 ∧
      ∀ rounds words, cutWords wcwidth columns (steps + rounds) (text word :: words) =
        (pieces.map text ++ ·) <$> cutWords wcwidth columns rounds words := by
  induction hn : word.length using Nat.strongRecOn generalizing word with
  | ind n ih =>
    obtain ⟨rest, hrest, htwice⟩ := @exists_takeColumns_append wcwidth columns word
    set piece := takeColumns wcwidth columns word with hpiece
    have hsplit := h
    rw [hrest] at hsplit
    obtain ⟨hpieceText, hrestText⟩ := List.forall_mem_append.mp hsplit
    -- a word that is its own prefix is taken in one round
    have hown : ∀ w, IsText w → takeColumns wcwidth columns w = w → ∀ rounds words,
        cutWords wcwidth columns (1 + rounds) (text w :: words) = (text w :: ·) <$> cutWords wcwidth columns rounds words := by
      intro w hw htake rounds words
      rw [Nat.add_comm, cutWords, getStringPrefixByWidth_text hw hcolumns, htake]
      exact if_pos rfl
    by_cases heq : piece = word
    · refine ⟨[word], 1, ⟨List.forall_mem_singleton.mpr h, fun _ => rfl, fun hwide => ⟨word, List.mem_singleton_self _, hwide⟩⟩,
        by omega, hown word h heq⟩
    · have hwide : columns < width wcwidth word := by
        by_contra hle
        exact heq (takeColumns_of_le (Nat.not_lt.mp hle)).1
      have hne : 0 < piece.length := by
        rw [hpiece]
        cases word with
        | nil => exact absurd rfl heq
        | cons cp cps => exact Nat.succ_pos _
      have hlength := congrArg List.length hrest
      rw [List.length_append] at hlength
      obtain ⟨pieces, steps, hpieces, hsteps, hcut⟩ := ih rest.length (by omega) hrestText rfl
      refine ⟨piece :: pieces, 1 + (1 + steps), ⟨List.forall_mem_cons.mpr ⟨hpieceText, hpieces.isText⟩,
        fun hle => absurd hle (Nat.not_le.mpr hwide), fun _ => ⟨piece, List.mem_cons_self, lt_width_takeColumns hwide⟩⟩,
        by omega, ?_⟩
      intro rounds words
      have htext : text piece ≠ text word := fun hsame => heq (flatMap_encode_inj hpieceText h hsame)
      have hdrop : (text word).drop (text piece).length = text rest := by
        rw [hrest, text_append, List.drop_left]
      rw [Nat.add_assoc, Nat.add_comm, cutWords, getStringPrefixByWidth_text h hcolumns, ← hpiece]
      simp only [htext, if_false, hdrop]
      rw [Nat.add_assoc, hown piece hpieceText htwice, hcut]
      cases cutWords wcwidth columns rounds words with
      | none => rfl
      | some ps => rfl

theorem exists_cutWords (hcolumns : columns < 2 ^ 31) {words : List (List ℕ)} (h : ∀ word ∈ words, IsText word) :
    ∃ pieces steps, (∀ piece ∈ pieces, IsText piece) ∧ ((∀ word ∈ words, width wcwidth word ≤ columns) → pieces = words) ∧
      ((∃ word ∈ words, columns < width wcwidth word) → ∃ piece ∈ pieces, columns < width wcwidth piece) ∧
      steps ≤ ((words.map text).map fun word => 2 * word.length + 1).sum ∧
      ∀ rounds, cutWords wcwidth columns (steps + rounds) (words.map text) = some (pieces.map text) := by
  induction words with
  | nil =>
    refine ⟨[], 0, List.forall_mem_nil _, fun _ => rfl, ?_, Nat.zero_le _, fun rounds => by rw [List.map_nil, cutWords]⟩
    rintro ⟨word, hword, -⟩
    cases hword
  | cons word words ih =>
    obtain ⟨hword, hwords⟩ := List.forall_mem_cons.mp h
    obtain ⟨first, steps, hfirst, hsteps, hcut⟩ := @cutWords_word wcwidth columns hcolumns word hword
    obtain ⟨pieces, steps', hpieces, hfits, hwide, hsteps', hcut'⟩ := ih hwords
    refine ⟨first ++ pieces, steps + steps', List.forall_mem_append.mpr ⟨hfirst.isText, hpieces⟩, ?_, ?_, ?_, ?_⟩
    · intro hall
      obtain ⟨hle, hrest⟩ := List.forall_mem_cons.mp hall
      rw [hfirst.fits hle, hfits hrest, List.singleton_append]
    · rintro ⟨w, hmem, hw⟩
      rcases List.mem_cons.mp hmem with rfl | hmem
      · obtain ⟨piece, hp, hlt⟩ := hfirst.wide hw
        exact ⟨piece, List.mem_append_left _ hp, hlt⟩
      · obtain ⟨piece, hp, hlt⟩ := hwide ⟨w, hmem, hw⟩
        exact ⟨piece, List.mem_append_right _ hp, hlt⟩
    · have hlength := length_le_text word
      rw [List.map_cons, List.map_cons, List.sum_cons]
      omega
    · intro rounds
      rw [List.map_cons, Nat.add_assoc, hcut, hcut', List.map_append]
      rfl

theorem text_append_space (l word : List ℕ) : text l ++ 0x20 :: text word = text (l ++ 0x20 :: word) := by
  rw [text_append, text_cons, encode_ascii (by decide)]
  rfl

theorem IsText.append_space {l word : List ℕ} (hl : IsText l) (hword : IsText word) : IsText (l ++ 0x20 :: word) :=
  hl.append (List.forall_mem_cons.mpr ⟨by decide, hword⟩)

theorem exists_wide_line {pieces : List (List ℕ)} (h : ∀ piece ∈ pieces, IsText piece) {l : List ℕ} (hl : IsText l) (n : ℕ)
    (hwide : columns < width wcwidth l ∨ ∃ piece ∈ pieces, columns < width wcwidth piece) :
    ∃ line ∈ fillLines wcwidth columns (text l, n) (pieces.map text),
      ∃ cps, IsText cps ∧ line.1 = text cps ∧ columns < width wcwidth cps := by
  induction pieces generalizing l n with
  | nil =>
    refine ⟨(text l, n), List.mem_singleton_self _, l, hl, rfl, hwide.resolve_right ?_⟩
    rintro ⟨piece, hmem, -⟩
    cases hmem
  | cons word words ih =>
    obtain ⟨hword, hwords⟩ := List.forall_mem_cons.mp h
    have hwidth := @width_append wcwidth l (0x20 :: word)
    have hwidth' := @width_append wcwidth l word
    rw [width_cons] at hwidth
    simp only [List.exists_mem_cons_iff] at hwide
    have hjoined : ∀ l' n', IsText l' → width wcwidth l + width wcwidth word ≤ width wcwidth l' →
        ∃ line ∈ fillLines wcwidth columns (text l', n') (words.map text),
          ∃ cps, IsText cps ∧ line.1 = text cps ∧ columns < width wcwidth cps := by
      intro l' n' hl' hle
      refine ih hwords hl' n' ?_
      rcases hwide with hlt | hlt | hrest
      · exact .inl (by omega)
      · exact .inl (by omega)
      · exact .inr hrest
    rw [List.map_cons, fillLines]
    split_ifs
    · rcases hwide with hlt | hrest
      · exact ⟨_, List.mem_cons_self, l, hl, rfl, hlt⟩
      · obtain ⟨line, hmem, hline⟩ := ih hwords hword _ hrest
        exact ⟨line, List.mem_cons_of_mem _ hmem, hline⟩
    · rw [text_append_space]
      exact hjoined _ _ (hl.append_space hword) (by omega)
    · rw [← text_append]
      exact hjoined _ _ (hl.append hword) hwidth'.ge

theorem forall_mem_dropLast_cons {α : Type} {P : α → Prop} {a : α} {l : List α} (h : ∀ x ∈ (a :: l).dropLast, P x) :
    (l = [] ∨ P a) ∧ ∀ x ∈ l.dropLast, P x := by
  cases l with
  | nil => exact ⟨.inl rfl, List.forall_mem_nil _⟩
  | cons b l =>
    rw [List.dropLast_cons_cons, List.forall_mem_cons] at h
    exact ⟨.inr h.1, h.2⟩

theorem fillLines_ne_nil (line : Bytes × ℕ) (words : List Bytes) : fillLines wcwidth columns line words ≠ [] := by
  induction words generalizing line with
  | nil => exact List.cons_ne_nil _ _
  | cons word words ih =>
    rw [fillLines]
    split_ifs
    · exact List.cons_ne_nil _ _
    · exact ih _
    · exact ih _

section

variable (hspace : wcwidth 0x20 = 1) (hcolumns : columns ≤ 999999999)

include hcolumns in
theorem fillLines_cons {l word : List ℕ} (hl : IsText l) (hword : IsText word) (hfit : width wcwidth l ≤ columns)
    (hwordFit : width wcwidth word ≤ columns) (n : ℕ) (words : List Bytes) :
    fillLines wcwidth columns (text l, n) (text word :: words) =
      if 0 < width wcwidth l then
        if columns < width wcwidth l + 1 + width wcwidth word then
          (text l, n) :: fillLines wcwidth columns (text word, width wcwidth word) words
        else fillLines wcwidth columns (text (l ++ 0x20 :: word), n + 1 + width wcwidth word) words
      else fillLines wcwidth columns (text (l ++ word), n + width wcwidth word) words := by
  rw [fillLines, getStringWidth_text hl (hfit.trans hcolumns), getStringWidth_text hword (hwordFit.trans hcolumns),
    text_append_space, ← text_append]
  by_cases hpos : 0 < width wcwidth l
  · simp [hpos]
  · simp [hpos]

include hspace in
theorem width_append_space (l word : List ℕ) :
    width wcwidth (l ++ 0x20 :: word) = width wcwidth l + 1 + width wcwidth word := by
  rw [width_append, width_cons, hspace, Nat.add_assoc]
  rfl

include hspace hcolumns in
theorem fillLines_shows {words : List (List ℕ)} (h : ∀ word ∈ words, IsText word ∧ width wcwidth word ≤ columns) {l : List ℕ}
    (hl : IsText l) (hfit : width wcwidth l ≤ columns) :
    ∀ line ∈ fillLines wcwidth columns (text l, width wcwidth l) (words.map text),
      line.2 ≤ columns ∧ Shows wcwidth line.1 line.2 := by
  induction words generalizing l with
  | nil => exact List.forall_mem_singleton.mpr ⟨hfit, l, hl, rfl, rfl⟩
  | cons word words ih =>
    obtain ⟨⟨hword, hwordFit⟩, hwords⟩ := List.forall_mem_cons.mp h
    rw [List.map_cons, fillLines_cons hcolumns hl hword hfit hwordFit]
    split_ifs with hpos hfull
    · exact List.forall_mem_cons.mpr ⟨⟨hfit, l, hl, rfl, rfl⟩, ih hwords hword hwordFit⟩
    · have hwidth := width_append_space hspace l word
      rw [← hwidth]
      exact ih hwords (hl.append_space hword) (by omega)
    · have hwidth := @width_append wcwidth l word
      rw [← hwidth]
      exact ih hwords (hl.append hword) (by omega)

include hspace hcolumns in
theorem intercalate_fillLines {words : List (List ℕ)} (h : ∀ word ∈ words, IsText word ∧ width wcwidth word ≤ columns)
    (hlast : ∀ word ∈ words.dropLast, 0 < width wcwidth word) {l : List ℕ} (hl : IsText l) (hfit : width wcwidth l ≤ columns)
    (hpos : words = [] ∨ 0 < width wcwidth l) (n : ℕ) :
    [0x20].intercalate ((fillLines wcwidth columns (text l, n) (words.map text)).map Prod.fst) =
      [0x20].intercalate (text l :: words.map text) := by
  induction words generalizing l n with
  | nil => rfl
  | cons word words ih =>
    obtain ⟨⟨hword, hwordFit⟩, hwords⟩ := List.forall_mem_cons.mp h
    have hl0 := hpos.resolve_left (List.cons_ne_nil _ _)
    obtain ⟨hwordPos, hrest⟩ := forall_mem_dropLast_cons hlast
    rw [List.map_cons, fillLines_cons hcolumns hl hword hfit hwordFit, if_pos hl0]
    split_ifs with hfull
    · rw [List.map_cons, List.intercalate_cons_of_ne_nil (mt List.map_eq_nil_iff.mp (fillLines_ne_nil _ _)),
        ih hwords hrest hword hwordFit hwordPos, List.intercalate_cons_of_ne_nil (List.cons_ne_nil _ _)]
    · have hwidth := width_append_space hspace l word
      rw [ih hwords hrest (hl.append_space hword) (by omega) (.inr (by omega)), ← text_append_space]
      cases words with
      | nil => simp
      | cons v words => simp

end

theorem Shows.unique {bytes : Bytes} {n : ℕ} (h : Shows wcwidth bytes n) (hcps : IsText cps)
    (htext : bytes = text cps) : n = width wcwidth cps := by
  obtain ⟨cps', hcps', rfl, rfl⟩ := h
  rw [flatMap_encode_inj hcps' hcps htext]

end Velkavo.Common
