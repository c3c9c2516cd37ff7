import Velkavo.ByteCodec.Utf8
import Mathlib.Data.List.TakeWhile

namespace Velkavo.Epee.Json

open ByteCodec Utf8

inductive StringFault
  | invalidEscape
  | badUnicode
  | codePointOutOfRange
  | noMatch
  | pastEnd
  deriving DecidableEq

def isx (c : ℕ) : Option ℕ :=
  if 0x30 ≤ c ∧ c ≤ 0x39 then some (c - 0x30)
  else if 0x41 ≤ c ∧ c ≤ 0x46 then some (c - 0x37)
  else if 0x61 ≤ c ∧ c ≤ 0x66 then some (c - 0x57)
  else none

def unescape (c : ℕ) : ℕ :=
  if c = 0x62 then 0x08
  else if c = 0x66 then 0x0c
  else if c = 0x6e then 0x0a
  else if c = 0x72 then 0x0d
  else if c = 0x74 then 0x09
  else if c = 0x76 then 0x0b
  else c

def readDigits : ℕ → ℕ → Bytes → Except StringFault ℕ
  | 0, dst, _ => .ok dst
  | _ + 1, _, [] => .error .pastEnd
  | n + 1, dst, c :: s =>
    match isx c.toNat with
    | none => .error .badUnicode
    | some tmp => readDigits n (dst <<< 4 ||| tmp) s

def stringLoop (escapeMode : Bool) (val : Bytes) : Bytes → Except StringFault (Bytes × Bytes)
  | [] => .error .noMatch
  | c :: s =>
    if escapeMode then
      if c = 0x75 then
        if s.length + 1 < 4 then .error .invalidEscape
        else
          match readDigits 4 0 s with
          | .error fault => .error fault
          | .ok dst => if dst ≤ 0xffff then stringLoop false (val ++ encode dst) (s.drop 4) else .error .codePointOutOfRange
      else stringLoop false (val ++ [UInt8.ofNat (unescape c.toNat)]) s
    else if c = 0x22 then .ok (val, c :: s)
    else if c = 0x5c then stringLoop true val s
    else stringLoop false (val ++ [c]) s
termination_by s => s.length
decreasing_by all_goals simp only [List.length_cons, List.length_drop]; omega

/-- The bytes whose entry of the table has not got the bit 32. -/
def isPlain (c : UInt8) : Bool := !(c == 0x22 || c == 0x5c)

def matchString2 (buf : Bytes) (pos : ℕ) : Except StringFault (Bytes × ℕ) :=
  let s := buf.drop (pos + 1)
  match stringLoop false (s.takeWhile isPlain) (s.dropWhile isPlain) with
  | .error fault => .error fault
  | .ok (val, rest) => .ok (val, buf.length - rest.length)

inductive Piece
  | char (c : ℕ)
  | escape (c : ℕ)
  | unit (ds : List ℕ)

def IsHex (ds : List ℕ) : Prop := ∀ d ∈ ds, (isx d).isSome = true

instance (ds : List ℕ) : Decidable (IsHex ds) := inferInstanceAs (Decidable (∀ d ∈ ds, (isx d).isSome = true))

def hexValue (v : ℕ) (ds : List ℕ) : ℕ := ds.foldl (fun v d => v * 16 + (isx d).getD 0) v

namespace Piece

def Valid : Piece → Prop
  | .char c => c ≠ 0x22 ∧ c ≠ 0x5c
  | .escape c => c ≠ 0x75
  | .unit ds => ds.length = 4 ∧ IsHex ds

instance : (p : Piece) → Decidable p.Valid
  | .char c => inferInstanceAs (Decidable (c ≠ 0x22 ∧ c ≠ 0x5c))
  | .escape c => inferInstanceAs (Decidable (c ≠ 0x75))
  | .unit ds => inferInstanceAs (Decidable (ds.length = 4 ∧ IsHex ds))

def text : Piece → List ℕ
  | .char c => [c]
  | .escape c => [0x5c, c]
  | .unit ds => 0x5c :: 0x75 :: ds

def point : Piece → ℕ
  | .char c => c
  | .escape c => unescape c
  | .unit ds => hexValue 0 ds

def bytes (enc : ℕ → Bytes) : Piece → Bytes
  | .unit ds => encode (hexValue 0 ds)
  | p => enc p.point

end Piece

/-- Each pair of surrogates is one code point; one without its other half is none. -/
def joinSurrogates : List ℕ → Option (List ℕ)
  | [] => some []
  | [u] => if 0xd800 ≤ u ∧ u ≤ 0xdfff then none else some [u]
  | u :: w :: l =>
    if 0xd800 ≤ u ∧ u ≤ 0xdbff ∧ 0xdc00 ≤ w ∧ w ≤ 0xdfff then
      (joinSurrogates l).map ((0x10000 + (u - 0xd800) * 0x400 + (w - 0xdc00)) :: ·)
    else if 0xd800 ≤ u ∧ u ≤ 0xdfff then none
    else (joinSurrogates (w :: l)).map (u :: ·)

def Denotes (text out : List ℕ) : Prop :=
  ∃ pieces : List Piece, (∀ p ∈ pieces, p.Valid) ∧ text = pieces.flatMap Piece.text ∧
    joinSurrogates (pieces.map Piece.point) = some out

structure Charset (enc : ℕ → Bytes) (ok : ℕ → Prop) : Prop where
  ascii : ∀ c < 128, enc c = [UInt8.ofNat c]
  high : ∀ c, ok c → 128 ≤ c → enc c ≠ [] ∧ ∀ b ∈ enc c, 128 ≤ b.toNat

theorem charset_bytes : Charset (fun c => [UInt8.ofNat c]) (· < 256) where
  ascii _ _ := rfl
  high c hc hle := by
    refine ⟨List.cons_ne_nil _ _, List.forall_mem_singleton.mpr ?_⟩
    rwa [toNat_ofNat hc]

theorem charset_utf8 : Charset encode (· ≤ maxCodePoint) where
  ascii c hc := encode_ascii hc
  high c hc hle := by
    refine ⟨fun hnil => ?_, fun b hb => encode_high hle hc hb⟩
    have hlength := length_encode c
    rw [hnil] at hlength
    cases hlength

theorem stringLoop_plain {p : Bytes} (h : ∀ b ∈ p, isPlain b = true) (val s : Bytes) :
    stringLoop false val (p ++ s) = stringLoop false (val ++ p) s := by
  induction p generalizing val with
  | nil => rw [List.nil_append, List.append_nil]
  | cons b p ih =>
    obtain ⟨hb, hp⟩ := List.forall_mem_cons.mp h
    have hplain : b ≠ 0x22 ∧ b ≠ 0x5c := by simpa [isPlain] using hb
    rw [List.cons_append, stringLoop, if_neg Bool.false_ne_true, if_neg hplain.1, if_neg hplain.2, ih hp, List.append_assoc]
    rfl

theorem isx_lt {d : ℕ} (h : (isx d).isSome = true) : d < 128 ∧ (isx d).getD 0 < 16 := by
  rw [isx] at h ⊢
  split_ifs at h ⊢ with h₁ h₂ h₃
  · exact ⟨by omega, by rw [Option.getD_some]; omega⟩
  · exact ⟨by omega, by rw [Option.getD_some]; omega⟩
  · exact ⟨by omega, by rw [Option.getD_some]; omega⟩
  · cases h

theorem hexValue_lt {ds : List ℕ} (h : IsHex ds) (v : ℕ) : hexValue v ds < (v + 1) * 16 ^ ds.length := by
  induction ds generalizing v with
  | nil => rw [List.length_nil, pow_zero, Nat.mul_one]; exact Nat.lt_succ_self v
  | cons d ds ih =>
    obtain ⟨hd, hds⟩ := List.forall_mem_cons.mp h
    have hdigit := (isx_lt hd).2
    refine (ih hds (v * 16 + (isx d).getD 0)).trans_le ?_
    rw [List.length_cons, pow_succ', ← Nat.mul_assoc]
    exact Nat.mul_le_mul_right _ (by omega)

section

variable {enc : ℕ → Bytes} {ok : ℕ → Prop}

theorem readDigits_append (h : Charset enc ok) {ds : List ℕ} (hds : IsHex ds) (n dst : ℕ) (s : Bytes) :
    readDigits (ds.length + n) dst (ds.flatMap enc ++ s) = readDigits n (hexValue dst ds) s := by
  induction ds generalizing dst with
  | nil => rw [List.length_nil, Nat.zero_add]; rfl
  | cons d ds ih =>
    obtain ⟨hd, hds⟩ := List.forall_mem_cons.mp hds
    obtain ⟨hlt, hdigit⟩ := isx_lt hd
    obtain ⟨tmp, htmp⟩ := Option.isSome_iff_exists.mp hd
    have hor : dst <<< 4 ||| tmp = dst * 16 + (isx d).getD 0 := by
      rw [htmp, Option.getD_some] at hdigit ⊢
      rw [← Nat.shiftLeft_add_eq_or_of_lt (i := 4) hdigit, Nat.shiftLeft_eq]
    rw [List.flatMap_cons, h.ascii d hlt, List.length_cons, show ds.length + 1 + n = ds.length + n + 1 by omega,
      List.append_assoc, List.singleton_append, readDigits, toNat_ofNat (by omega), htmp]
    exact (congrArg (fun v => readDigits (ds.length + n) v _) hor).trans (ih hds _)

theorem length_flatMap_hex (h : Charset enc ok) {ds : List ℕ} (hds : IsHex ds) : (ds.flatMap enc).length = ds.length := by
  induction ds with
  | nil => rfl
  | cons d ds ih =>
    obtain ⟨hd, hds⟩ := List.forall_mem_cons.mp hds
    rw [List.flatMap_cons, h.ascii d (isx_lt hd).1, List.length_append, ih hds, List.length_singleton, Nat.add_comm, List.length_cons]

variable {c : ℕ} {cps : List ℕ} {pieces : List Piece}

theorem isx_high (h : 128 ≤ c) : isx c = none := by
  rw [isx, if_neg (by omega), if_neg (by omega), if_neg (by omega)]

theorem readDigits_bad (h : Charset enc ok) (hc : ok c) (hx : isx c = none) (n dst : ℕ) (s : Bytes) :
    readDigits (n + 1) dst (enc c ++ s) = .error .badUnicode := by
  by_cases hlt : c < 128
  · rw [h.ascii c hlt, List.singleton_append, readDigits, toNat_ofNat (by omega), hx]
  · obtain ⟨hne, hhigh⟩ := h.high c hc (by omega)
    obtain ⟨b, t, henc⟩ := List.exists_cons_of_ne_nil hne
    rw [henc] at hhigh ⊢
    rw [List.cons_append, readDigits, isx_high (hhigh b List.mem_cons_self)]

theorem readDigits_cases (h : Charset enc ok) (hok : ∀ c ∈ cps, ok c) (n dst : ℕ) :
    (∃ ds cps', cps = ds ++ cps' ∧ ds.length = n ∧ IsHex ds) ∨ (cps.length < n ∧ IsHex cps) ∨
      readDigits n dst (cps.flatMap enc) = .error .badUnicode := by
  induction n generalizing dst cps with
  | zero => exact .inl ⟨[], cps, rfl, rfl, List.forall_mem_nil _⟩
  | succ n ih =>
    cases cps with
    | nil => exact .inr (.inl ⟨Nat.succ_pos n, List.forall_mem_nil _⟩)
    | cons c cps =>
      obtain ⟨hc, hcps⟩ := List.forall_mem_cons.mp hok
      by_cases hx : (isx c).isSome = true
      · have hone : IsHex [c] := List.forall_mem_singleton.mpr hx
        have hread := readDigits_append h hone n dst (cps.flatMap enc)
        rw [List.length_singleton, Nat.add_comm, List.flatMap_singleton] at hread
        rcases ih hcps (hexValue dst [c]) with ⟨ds, cps', rfl, hlength, hds⟩ | ⟨hlength, hds⟩ | hbad
        · exact .inl ⟨c :: ds, cps', rfl, congrArg Nat.succ hlength, List.forall_mem_cons.mpr ⟨hx, hds⟩⟩
        · exact .inr (.inl ⟨Nat.succ_lt_succ hlength, List.forall_mem_cons.mpr ⟨hx, hds⟩⟩)
        · exact .inr (.inr (hread.trans hbad))
      · exact .inr (.inr (readDigits_bad h hc (Option.not_isSome_iff_eq_none.mp hx) n dst _))

theorem Charset.plain (h : Charset enc ok) (hc : ok c) (hquote : c ≠ 0x22) (hbackslash : c ≠ 0x5c) :
    ∀ b ∈ enc c, isPlain b = true := by
  have hplain : ∀ b : UInt8, b.toNat ≠ 0x22 → b.toNat ≠ 0x5c → isPlain b = true := by
    intro b hb hb'
    simp only [isPlain, Bool.not_eq_true', Bool.or_eq_false_iff, beq_eq_false_iff_ne]
    exact ⟨fun he => hb (congrArg UInt8.toNat he), fun he => hb' (congrArg UInt8.toNat he)⟩
  by_cases hlt : c < 128
  · rw [h.ascii c hlt, List.forall_mem_singleton]
    apply hplain <;> rwa [toNat_ofNat (by omega)]
  · intro b hb
    have := (h.high c hc (by omega)).2 b hb
    exact hplain b (by omega) (by omega)

theorem unescape_high (h : 128 ≤ c) : unescape c = c := by
  rw [unescape]
  split_ifs <;> omega

theorem unescape_lt (h : c < 128) : unescape c < 128 := by
  rw [unescape]
  split_ifs <;> omega

theorem stringLoop_backslash (val s : Bytes) : stringLoop false val (0x5c :: s) = stringLoop true val s := by
  rw [stringLoop, if_neg Bool.false_ne_true, if_neg (by decide), if_pos rfl]

theorem stringLoop_escape {c : UInt8} (h : c.toNat ≠ 0x75) (val s : Bytes) :
    stringLoop true val (c :: s) = stringLoop false (val ++ [UInt8.ofNat (unescape c.toNat)]) s := by
  rw [stringLoop, if_pos rfl, if_neg fun he => h (congrArg UInt8.toNat he)]

theorem stringLoop_piece (h : Charset enc ok) {p : Piece} (hp : p.Valid) (hok : ∀ c ∈ p.text, ok c) (val s : Bytes) :
    stringLoop false val (p.text.flatMap enc ++ s) = stringLoop false (val ++ p.bytes enc) s := by
  cases p with
  | char c =>
    rw [Piece.text, List.flatMap_singleton]
    exact stringLoop_plain (h.plain (hok c List.mem_cons_self) hp.1 hp.2) val s
  | escape c =>
    rw [Piece.text, List.flatMap_cons, h.ascii 0x5c (by decide), List.flatMap_singleton]
    change stringLoop false val (0x5c :: (enc c ++ s)) = stringLoop false (val ++ enc (unescape c)) s
    rw [stringLoop_backslash]
    by_cases hlt : c < 128
    · have hc := toNat_ofNat (by omega : c < 256)
      rw [h.ascii c hlt, List.singleton_append, stringLoop_escape (by rwa [hc]), hc, h.ascii _ (unescape_lt hlt)]
    · obtain ⟨hne, hhigh⟩ := h.high c (hok c (by simp [Piece.text])) (by omega)
      have hplain := h.plain (hok c (by simp [Piece.text])) (by omega) (by omega)
      obtain ⟨b, t, henc⟩ := List.exists_cons_of_ne_nil hne
      rw [henc] at hhigh hplain
      have hb := hhigh b List.mem_cons_self
      rw [unescape_high (by omega), henc, List.cons_append, stringLoop_escape (by omega), unescape_high hb, UInt8.ofNat_toNat,
        stringLoop_plain (fun x hx => hplain x (List.mem_cons_of_mem b hx)), List.append_assoc]
      rfl
  | unit ds =>
    obtain ⟨hlength, hds⟩ := hp
    have hvalue := hexValue_lt hds 0
    have hread := readDigits_append h hds 0 0 s
    have hbytes := length_flatMap_hex h hds
    rw [hlength] at hread hvalue hbytes
    rw [Piece.text, List.flatMap_cons, List.flatMap_cons, h.ascii 0x5c (by decide), h.ascii 0x75 (by decide)]
    change stringLoop false val (0x5c :: 0x75 :: (ds.flatMap enc ++ s)) = _
    rw [stringLoop_backslash, stringLoop, if_pos rfl, if_pos rfl, if_neg (by rw [List.length_append]; omega), hread]
    change (if hexValue 0 ds ≤ 0xffff then _ else _) = _
    rw [if_pos (by omega), List.drop_left' hbytes]
    rfl

theorem stringLoop_pieces (h : Charset enc ok) (hp : ∀ p ∈ pieces, p.Valid)
    (hok : ∀ c ∈ pieces.flatMap Piece.text, ok c) (val s : Bytes) :
    stringLoop false val ((pieces.flatMap Piece.text).flatMap enc ++ s) =
      stringLoop false (val ++ pieces.flatMap (Piece.bytes enc)) s := by
  induction pieces generalizing val with
  | nil => rw [List.flatMap_nil, List.flatMap_nil, List.flatMap_nil, List.nil_append, List.append_nil]
  | cons p pieces ih =>
    obtain ⟨hp, hpieces⟩ := List.forall_mem_cons.mp hp
    rw [List.flatMap_cons, List.forall_mem_append] at hok
    rw [List.flatMap_cons, List.flatMap_append, List.append_assoc, stringLoop_piece h hp hok.1, ih hpieces hok.2, List.flatMap_cons,
      List.append_assoc]

def Ends (enc : ℕ → Bytes) (cps : List ℕ) : Prop :=
  (∃ pieces : List Piece, ∃ cps', (∀ p ∈ pieces, p.Valid) ∧ cps = pieces.flatMap Piece.text ++ 0x22 :: cps') ∨
    (∃ pieces : List Piece, ∃ ds, (∀ p ∈ pieces, p.Valid) ∧ ds.length = 3 ∧ IsHex ds ∧
      cps = pieces.flatMap Piece.text ++ 0x5c :: 0x75 :: ds) ∨
    ∀ val, ∃ fault, fault ≠ .pastEnd ∧ stringLoop false val (cps.flatMap enc) = .error fault

theorem Ends.prepend (h : Charset enc ok) {p : Piece} (hp : p.Valid) (hok : ∀ c ∈ p.text ++ cps, ok c)
    (hends : Ends enc cps) : Ends enc (p.text ++ cps) := by
  rcases hends with ⟨pieces, cps', hpieces, rfl⟩ | ⟨pieces, ds, hpieces, hlength, hds, rfl⟩ | hfault
  · exact .inl ⟨p :: pieces, cps', List.forall_mem_cons.mpr ⟨hp, hpieces⟩, by rw [List.flatMap_cons, List.append_assoc]⟩
  · exact .inr (.inl ⟨p :: pieces, ds, List.forall_mem_cons.mpr ⟨hp, hpieces⟩, hlength, hds, by
      rw [List.flatMap_cons, List.append_assoc]⟩)
  · refine .inr (.inr fun val => ?_)
    rw [List.flatMap_append, stringLoop_piece h hp (List.forall_mem_append.mp hok).1]
    exact hfault _

theorem ends (h : Charset enc ok) (hok : ∀ c ∈ cps, ok c) : Ends enc cps := by
  induction hn : cps.length using Nat.strongRecOn generalizing cps with
  | ind n ih =>
    have hprepend : ∀ (p : Piece) (cps' : List ℕ), p.Valid → cps = p.text ++ cps' → cps'.length < n → Ends enc cps := by
      rintro p cps' hp rfl hlt
      exact Ends.prepend h hp hok (ih _ hlt (List.forall_mem_append.mp hok).2 rfl)
    rcases cps with _ | ⟨c, cps⟩
    · refine .inr (.inr fun val => ⟨.noMatch, by decide, ?_⟩)
      rw [List.flatMap_nil, stringLoop]
    · subst hn
      by_cases hquote : c = 0x22
      · exact .inl ⟨[], cps, List.forall_mem_nil _, by rw [hquote]; rfl⟩
      by_cases hbackslash : c = 0x5c
      · subst hbackslash
        have hloop : ∀ val, stringLoop false val ((0x5c :: cps).flatMap enc) = stringLoop true val (cps.flatMap enc) := by
          intro val
          rw [List.flatMap_cons, h.ascii 0x5c (by decide)]
          exact stringLoop_backslash val _
        rcases cps with _ | ⟨d, cps⟩
        · refine .inr (.inr fun val => ⟨.noMatch, by decide, ?_⟩)
          rw [hloop, List.flatMap_nil, stringLoop]
        by_cases hunit : d = 0x75
        · subst hunit
          have hescape : ∀ val, stringLoop true val ((0x75 :: cps).flatMap enc) = stringLoop true val (0x75 :: cps.flatMap enc) := by
            intro val
            rw [List.flatMap_cons, h.ascii 0x75 (by decide)]
            rfl
          by_cases hshort : (cps.flatMap enc).length + 1 < 4
          · refine .inr (.inr fun val => ⟨.invalidEscape, by decide, ?_⟩)
            rw [hloop, hescape, stringLoop, if_pos rfl, if_pos rfl, if_pos hshort]
          · have hcps : ∀ c ∈ cps, ok c := fun c hc => hok c (List.mem_cons_of_mem _ (List.mem_cons_of_mem _ hc))
            rcases readDigits_cases h hcps 4 0 with ⟨ds, cps', rfl, hlength, hds⟩ | ⟨hlength, hds⟩ | hbad
            · refine hprepend (.unit ds) cps' ⟨hlength, hds⟩ rfl ?_
              simp only [List.length_cons, List.length_append]
              omega
            · rw [length_flatMap_hex h hds] at hshort
              exact .inr (.inl ⟨[], cps, List.forall_mem_nil _, by omega, hds, rfl⟩)
            · refine .inr (.inr fun val => ⟨.badUnicode, by decide, ?_⟩)
              rw [hloop, hescape, stringLoop, if_pos rfl, if_pos rfl, if_neg hshort, hbad]
        · refine hprepend (.escape d) cps hunit rfl ?_
          simp only [List.length_cons]
          omega
      · exact hprepend (.char c) cps ⟨hquote, hbackslash⟩ rfl (Nat.lt_succ_self _)

theorem stringLoop_closed (h : Charset enc ok) (hp : ∀ p ∈ pieces, p.Valid)
    (hok : ∀ c ∈ pieces.flatMap Piece.text, ok c) (post : Bytes) :
    stringLoop false [] ((pieces.flatMap Piece.text).flatMap enc ++ 0x22 :: post) =
      .ok (pieces.flatMap (Piece.bytes enc), 0x22 :: post) := by
  rw [stringLoop_pieces h hp hok, stringLoop, if_neg Bool.false_ne_true, if_pos rfl, List.nil_append]

theorem stringLoop_cut (h : Charset enc ok) (hp : ∀ p ∈ pieces, p.Valid) {ds : List ℕ}
    (hok : ∀ c ∈ pieces.flatMap Piece.text ++ 0x5c :: 0x75 :: ds, ok c) (hlength : ds.length = 3) (hds : IsHex ds) :
    stringLoop false [] ((pieces.flatMap Piece.text ++ 0x5c :: 0x75 :: ds).flatMap enc) = .error .pastEnd := by
  have hread := readDigits_append h hds 1 0 []
  rw [hlength, List.append_nil] at hread
  rw [List.flatMap_append, stringLoop_pieces h hp (List.forall_mem_append.mp hok).1, List.flatMap_cons, List.flatMap_cons,
    h.ascii 0x5c (by decide), h.ascii 0x75 (by decide)]
  change stringLoop false _ (0x5c :: 0x75 :: ds.flatMap enc) = _
  rw [stringLoop_backslash, stringLoop, if_pos rfl, if_pos rfl, if_neg (by rw [length_flatMap_hex h hds]; omega), hread]
  rfl

theorem stringLoop_cases (h : Charset enc ok) (hok : ∀ c ∈ cps, ok c) :
    (∃ pieces : List Piece, ∃ cps', (∀ p ∈ pieces, p.Valid) ∧ cps = pieces.flatMap Piece.text ++ 0x22 :: cps' ∧
      stringLoop false [] (cps.flatMap enc) = .ok (pieces.flatMap (Piece.bytes enc), 0x22 :: cps'.flatMap enc)) ∨
    (∃ pieces : List Piece, ∃ ds, (∀ p ∈ pieces, p.Valid) ∧ ds.length = 3 ∧ IsHex ds ∧
      cps = pieces.flatMap Piece.text ++ 0x5c :: 0x75 :: ds ∧ stringLoop false [] (cps.flatMap enc) = .error .pastEnd) ∨
    ∃ fault, fault ≠ .pastEnd ∧ stringLoop false [] (cps.flatMap enc) = .error fault := by
  rcases ends h hok with ⟨pieces, cps', hp, rfl⟩ | ⟨pieces, ds, hp, hlength, hds, rfl⟩ | hfault
  · refine .inl ⟨pieces, cps', hp, rfl, ?_⟩
    rw [List.flatMap_append, List.flatMap_cons, h.ascii 0x22 (by decide)]
    exact stringLoop_closed h hp (List.forall_mem_append.mp hok).1 _
  · exact .inr (.inl ⟨pieces, ds, hp, hlength, hds, rfl, stringLoop_cut h hp hok hlength hds⟩)
  · exact .inr (.inr (hfault []))

end

theorem matchString2_eq (buf : Bytes) (pos : ℕ) :
    matchString2 buf pos =
      match stringLoop false [] (buf.drop (pos + 1)) with
      | .error fault => .error fault
      | .ok (val, rest) => .ok (val, buf.length - rest.length) := by
  have hplain : ∀ b ∈ (buf.drop (pos + 1)).takeWhile isPlain, isPlain b = true := fun b hb => List.mem_takeWhile_imp hb
  have hloop := stringLoop_plain hplain [] ((buf.drop (pos + 1)).dropWhile isPlain)
  rw [List.takeWhile_append_dropWhile, List.nil_append] at hloop
  rw [matchString2, hloop]

def between (buf : Bytes) (pos pos' : ℕ) : Bytes := (buf.drop (pos + 1)).take (pos' - (pos + 1))

structure ReadsString (buf : Bytes) (pos : ℕ) : Prop where
  inBounds : matchString2 buf pos ≠ .error .pastEnd
  closing : ∀ val pos', matchString2 buf pos = .ok (val, pos') → pos < pos' ∧ buf[pos']? = some 0x22 ∧
    ∃ pieces : List Piece, (∀ p ∈ pieces, p.Valid) ∧ (between buf pos pos').map UInt8.toNat = pieces.flatMap Piece.text
  denotes : ∀ val pos' cps, matchString2 buf pos = .ok (val, pos') → (∀ c ∈ cps, IsScalar c) →
    between buf pos pos' = cps.flatMap encode →
    ∃ out, Denotes cps out ∧ (∀ c ∈ out, IsScalar c) ∧ val = out.flatMap encode

def CutOff (s : Bytes) : Prop :=
  ∃ pieces : List Piece, ∃ ds, (∀ p ∈ pieces, p.Valid) ∧ ds.length = 3 ∧ IsHex ds ∧
    s.map UInt8.toNat = pieces.flatMap Piece.text ++ 0x5c :: 0x75 :: ds

def HasSurrogate (s : Bytes) : Prop :=
  ∃ pieces : List Piece, ∃ post, (∀ p ∈ pieces, p.Valid) ∧ (∀ c ∈ pieces.flatMap Piece.text, IsScalar c) ∧
    s = (pieces.flatMap Piece.text).flatMap encode ++ 0x22 :: post ∧ ∃ p ∈ pieces, ¬IsScalar p.point

theorem flatMap_toNat (s : Bytes) : (s.map UInt8.toNat).flatMap (fun c => [UInt8.ofNat c]) = s := by
  rw [List.flatMap_map]
  simp

theorem lt_of_mem_toNat (s : Bytes) : ∀ c ∈ s.map UInt8.toNat, c < 256 := by
  intro c hc
  obtain ⟨b, -, rfl⟩ := List.mem_map.mp hc
  exact b.toNat_lt

theorem flatMap_bytes (pieces : List Piece) : pieces.flatMap (Piece.bytes encode) = (pieces.map Piece.point).flatMap encode := by
  rw [List.flatMap_map]
  refine List.flatMap_congr fun p _ => ?_
  cases p <;> rfl

theorem point_le {p : Piece} (hp : p.Valid) (h : ∀ c ∈ p.text, c ≤ maxCodePoint) : p.point ≤ maxCodePoint := by
  cases p with
  | char c => exact h c List.mem_cons_self
  | escape c =>
    by_cases hlt : c < 128
    · exact (unescape_lt hlt).le.trans (by decide)
    · rw [Piece.point, unescape_high (by omega)]
      exact h c (by simp [Piece.text])
  | unit ds =>
    have hvalue := hexValue_lt hp.2 0
    rw [hp.1] at hvalue
    exact hvalue.le.trans (by decide)

theorem joinSurrogates_scalar {l : List ℕ} (h : ∀ c ∈ l, IsScalar c) : joinSurrogates l = some l := by
  induction l with
  | nil => rfl
  | cons u l ih =>
    obtain ⟨hu, hl⟩ := List.forall_mem_cons.mp h
    cases l with
    | nil => exact if_neg hu.2
    | cons w l =>
      have hpair : ¬(0xd800 ≤ u ∧ u ≤ 0xdbff ∧ 0xdc00 ≤ w ∧ w ≤ 0xdfff) := fun hpair => hu.2 ⟨hpair.1, by omega⟩
      rw [joinSurrogates, if_neg hpair, if_neg hu.2, ih hl]
      rfl

theorem pieces_of_bytes {cps : List ℕ} (hcps : ∀ c ∈ cps, c ≤ maxCodePoint) {pieces : List Piece} (hp : ∀ p ∈ pieces, p.Valid)
    (htext : (cps.flatMap encode).map UInt8.toNat = pieces.flatMap Piece.text) :
    ∃ pieces' : List Piece, (∀ p ∈ pieces', p.Valid) ∧ cps = pieces'.flatMap Piece.text := by
  have hclosed := stringLoop_closed charset_bytes hp (htext ▸ lt_of_mem_toNat _) []
  rw [← htext, flatMap_toNat] at hclosed
  have hquoted : (cps ++ [0x22]).flatMap encode = cps.flatMap encode ++ [0x22] := List.flatMap_append
  have hok : ∀ c ∈ cps ++ [0x22], c ≤ maxCodePoint := List.forall_mem_append.mpr ⟨hcps, List.forall_mem_singleton.mpr (by decide)⟩
  have hloop := stringLoop_cases charset_utf8 hok
  rw [hquoted, hclosed] at hloop
  rcases hloop with ⟨pieces', cps', hp', heq, hloop⟩ | ⟨_, _, _, _, _, _, hcut⟩ | ⟨_, _, hfault⟩
  · rw [heq, List.forall_mem_append, List.forall_mem_cons] at hok
    have hrest : ([] : Bytes) = cps'.flatMap encode := by
      injection hloop with hloop
      injection hloop with _ hrest
      injection hrest
    obtain rfl := flatMap_encode_inj (List.forall_mem_nil _) hok.2.2 hrest
    exact ⟨pieces', hp', List.append_inj_left' heq rfl⟩
  · cases hcut
  · cases hfault

theorem matchString2_closed {buf body val post : Bytes} {pos : ℕ} (hlt : pos < buf.length)
    (hs : buf.drop (pos + 1) = body ++ 0x22 :: post)
    (hloop : stringLoop false [] (buf.drop (pos + 1)) = .ok (val, 0x22 :: post)) :
    matchString2 buf pos = .ok (val, pos + 1 + body.length) ∧ between buf pos (pos + 1 + body.length) = body ∧
      buf[pos + 1 + body.length]? = some 0x22 := by
  have hlength := congrArg List.length hs
  rw [List.length_drop, List.length_append, List.length_cons] at hlength
  refine ⟨?_, ?_, ?_⟩
  · rw [matchString2_eq, hloop]
    change Except.ok (val, buf.length - (post.length + 1)) = _
    rw [show buf.length - (post.length + 1) = pos + 1 + body.length by omega]
  · rw [between, hs, Nat.add_sub_cancel_left, List.take_left]
  · rw [← List.getElem?_drop, hs, List.getElem?_append_right (Nat.le_refl _), Nat.sub_self]
    rfl

theorem stringLoop_bytes (s : Bytes) :
    (∃ body post val, ∃ pieces : List Piece, (∀ p ∈ pieces, p.Valid) ∧ s = body ++ 0x22 :: post ∧
      body.map UInt8.toNat = pieces.flatMap Piece.text ∧ stringLoop false [] s = .ok (val, 0x22 :: post)) ∨
    CutOff s ∨ ∃ fault, fault ≠ .pastEnd ∧ stringLoop false [] s = .error fault := by
  have hloop := stringLoop_cases charset_bytes (lt_of_mem_toNat s)
  rw [flatMap_toNat] at hloop
  rcases hloop with ⟨pieces, cps', hp, heq, hloop⟩ | ⟨pieces, ds, hp, hlength, hds, heq, -⟩ | hfault
  · obtain ⟨body, tail, rfl, hbody, htail⟩ := List.map_eq_append_iff.mp heq
    obtain ⟨q, post, rfl, hq, rfl⟩ := List.map_eq_cons_iff.mp htail
    obtain rfl : q = 0x22 := UInt8.toNat_inj.mp hq
    rw [flatMap_toNat] at hloop
    exact .inl ⟨body, post, _, pieces, hp, rfl, hbody, hloop⟩
  · exact .inr (.inl ⟨pieces, ds, hp, hlength, hds, heq⟩)
  · exact .inr (.inr hfault)

theorem CutOff.pastEnd {s : Bytes} (h : CutOff s) : stringLoop false [] s = .error .pastEnd := by
  obtain ⟨pieces, ds, hp, hlength, hds, heq⟩ := h
  have hcut := stringLoop_cut charset_bytes hp (heq ▸ lt_of_mem_toNat s) hlength hds
  rwa [← heq, flatMap_toNat] at hcut

theorem match_string2_iff (buf : Bytes) (pos : ℕ) (hquote : buf[pos]? = some 0x22) :
    ReadsString buf pos ↔ ¬CutOff (buf.drop (pos + 1)) ∧ ¬HasSurrogate (buf.drop (pos + 1)) := by
  have hlt : pos < buf.length := (List.getElem?_eq_some_iff.mp hquote).1
  constructor
  · intro hreads
    refine ⟨fun hcut => hreads.inBounds ?_, ?_⟩
    · rw [matchString2_eq, hcut.pastEnd]
    · rintro ⟨pieces, post, hp, hscalar, hs, p, hmem, hsurrogate⟩
      have hle : ∀ c ∈ pieces.flatMap Piece.text, c ≤ maxCodePoint := fun c hc => (hscalar c hc).1
      have hloop := stringLoop_closed charset_utf8 hp hle post
      rw [← hs] at hloop
      obtain ⟨hmatch, hbetween, -⟩ := matchString2_closed hlt hs hloop
      obtain ⟨out, -, hout, hval⟩ := hreads.denotes _ _ _ hmatch hscalar hbetween
      rw [flatMap_bytes] at hval
      have hpoints : ∀ c ∈ pieces.map Piece.point, c ≤ maxCodePoint := by
        intro c hc
        obtain ⟨q, hq, rfl⟩ := List.mem_map.mp hc
        exact point_le (hp q hq) fun d hd => hle d (List.mem_flatMap.mpr ⟨q, hq, hd⟩)
      rw [← flatMap_encode_inj hpoints (fun c hc => (hout c hc).1) hval] at hout
      exact hsurrogate (hout _ (List.mem_map_of_mem hmem))
  · rintro ⟨hcut, hsurrogate⟩
    -- a value is returned at the first quote that no backslash escapes
    have hok : ∀ val pos', matchString2 buf pos = .ok (val, pos') → ∃ body post, ∃ pieces : List Piece,
        (∀ p ∈ pieces, p.Valid) ∧ buf.drop (pos + 1) = body ++ 0x22 :: post ∧ body.map UInt8.toNat = pieces.flatMap Piece.text ∧
        stringLoop false [] (buf.drop (pos + 1)) = .ok (val, 0x22 :: post) ∧ pos' = pos + 1 + body.length := by
      intro val pos' hmatch
      rcases stringLoop_bytes (buf.drop (pos + 1)) with ⟨body, post, val', pieces, hp, hs, hbody, hloop⟩ | hcut' | ⟨fault, -, hfault⟩
      · have hclosed := (matchString2_closed hlt hs hloop).1
        rw [hmatch] at hclosed
        cases hclosed
        exact ⟨body, post, pieces, hp, hs, hbody, hloop, rfl⟩
      · exact absurd hcut' hcut
      · rw [matchString2_eq, hfault] at hmatch
        cases hmatch
    refine ⟨fun hpast => ?_, fun val pos' hmatch => ?_, fun val pos' cps hmatch hscalar hbetween => ?_⟩
    · rw [matchString2_eq] at hpast
      rcases stringLoop_bytes (buf.drop (pos + 1)) with ⟨_, _, _, _, _, _, _, hloop⟩ | hcut' | ⟨fault, hne, hfault⟩
      · rw [hloop] at hpast
        cases hpast
      · exact hcut hcut'
      · rw [hfault] at hpast
        cases hpast
        exact hne rfl
    · obtain ⟨body, post, pieces, hp, hs, hbody, hloop, rfl⟩ := hok val pos' hmatch
      obtain ⟨-, hbetween, hclose⟩ := matchString2_closed hlt hs hloop
      exact ⟨by omega, hclose, pieces, hp, by rw [hbetween, hbody]⟩
    · obtain ⟨body, post, pieces, hp, hs, hbody, hloop, rfl⟩ := hok val pos' hmatch
      rw [(matchString2_closed hlt hs hloop).2.1] at hbetween
      have hle : ∀ c ∈ cps, c ≤ maxCodePoint := fun c hc => (hscalar c hc).1
      obtain ⟨pieces', hp', rfl⟩ := pieces_of_bytes hle hp (by rw [← hbetween, hbody])
      have hpoints : ∀ c ∈ pieces'.map Piece.point, IsScalar c := by
        intro c hc
        obtain ⟨q, hq, rfl⟩ := List.mem_map.mp hc
        by_contra hnot
        exact hsurrogate ⟨pieces', post, hp', hscalar, by rw [hs, hbetween], q, hq, hnot⟩
      have hvalue := stringLoop_closed charset_utf8 hp' hle post
      rw [← hbetween, ← hs, hloop, flatMap_bytes] at hvalue
      cases hvalue
      exact ⟨_, ⟨pieces', hp', rfl, joinSurrogates_scalar hpoints⟩, hpoints, rfl⟩

theorem match_string2_iff_tab :
    ([0x22, 0x5c, 0x74, 0xc3, 0xa9, 0x22] : Bytes)[0]? = some 0x22 ∧
      (ReadsString [0x22, 0x5c, 0x74, 0xc3, 0xa9, 0x22] 0 ↔
        ¬CutOff [0x5c, 0x74, 0xc3, 0xa9, 0x22] ∧ ¬HasSurrogate [0x5c, 0x74, 0xc3, 0xa9, 0x22]) :=
  ⟨rfl, match_string2_iff [0x22, 0x5c, 0x74, 0xc3, 0xa9, 0x22] 0 rfl⟩

theorem match_string2_misreads :
    matchString2 [0x22, 0x5c, 0x75, 0x31, 0x32, 0x33] 0 = .error .pastEnd ∧
      matchString2 [0x22, 0x5c, 0x75, 0x64, 0x38, 0x33, 0x64, 0x5c, 0x75, 0x64, 0x65, 0x30, 0x30, 0x22] 0 =
        .ok ([0xed, 0xa0, 0xbd, 0xed, 0xb8, 0x80], 13) ∧
      Denotes [0x5c, 0x75, 0x64, 0x38, 0x33, 0x64, 0x5c, 0x75, 0x64, 0x65, 0x30, 0x30] [0x1f600] := by
  have hpieces : ∀ p ∈ [Piece.unit [0x64, 0x38, 0x33, 0x64], Piece.unit [0x64, 0x65, 0x30, 0x30]], p.Valid := by decide
  refine ⟨?_, ?_, ⟨_, hpieces, rfl, rfl⟩⟩
  · rw [matchString2_eq, CutOff.pastEnd ⟨[], [0x31, 0x32, 0x33], List.forall_mem_nil _, rfl, by decide, rfl⟩]
  · have hloop := stringLoop_closed charset_utf8 hpieces (by decide) []
    exact (@matchString2_closed [0x22, 0x5c, 0x75, 0x64, 0x38, 0x33, 0x64, 0x5c, 0x75, 0x64, 0x65, 0x30, 0x30, 0x22]
      [0x5c, 0x75, 0x64, 0x38, 0x33, 0x64, 0x5c, 0x75, 0x64, 0x65, 0x30, 0x30] _ [] 0 (by decide) rfl hloop).1

end Velkavo.Epee.Json
