import Velkavo.ByteCodec.Text
import Velkavo.ByteCodec.Utf8

/-! The text of a note from somebody else, made safe to display. -/

namespace Velkavo.Common

open ByteCodec Utf8

def utf8canonicalLoop (t : ℕ → ℕ) : ℕ → Bytes → Bytes → Except Fault Bytes
  | 0, _, sc => .ok sc
  | avail + 1, ptr, sc => do
    let (cp, k, ptr) ← decode avail ptr
    if t cp ≤ maxCodePoint then utf8canonicalLoop t (avail - k) ptr (sc ++ encode (t cp)) else throw .invalid
termination_by avail => avail

def utf8canonical (t : ℕ → ℕ) (s : Bytes) : Except Fault Bytes := utf8canonicalLoop t s.length s []

variable {t : ℕ → ℕ}

theorem utf8canonicalLoop_succ {avail cp k : ℕ} {ptr rest : Bytes} (h : decode avail ptr = .ok (cp, k, rest)) (sc : Bytes) :
    utf8canonicalLoop t (avail + 1) ptr sc =
      if t cp ≤ maxCodePoint then utf8canonicalLoop t (avail - k) rest (sc ++ encode (t cp)) else .error .invalid := by
  rw [utf8canonicalLoop, h]
  rfl

theorem utf8canonicalLoop_cases {avail : ℕ} {ptr : Bytes} (h : ptr.length = avail) (sc : Bytes) :
    utf8canonicalLoop t avail ptr sc = .error .invalid ∨
      ∃ cps : List ℕ, utf8canonicalLoop t avail ptr sc = .ok (sc ++ (cps.map t).flatMap encode) ∧ (∀ cp ∈ cps, t cp ≤ maxCodePoint) ∧
        ((∀ cp, more (t cp) ≤ more cp) → ((cps.map t).flatMap encode).length ≤ avail) := by
  induction avail using Nat.strongRecOn generalizing ptr sc with
  | ind avail ih =>
    cases avail with
    | zero => exact .inr ⟨[], by rw [utf8canonicalLoop, List.map_nil, List.flatMap_nil, List.append_nil], List.forall_mem_nil _, fun _ => le_rfl⟩
    | succ avail =>
      rcases decode_cases h with hdecode | ⟨cp, k, rest, hdecode, hrest, hk⟩
      · refine .inl ?_
        rw [utf8canonicalLoop, hdecode]
        rfl
      · rw [utf8canonicalLoop_succ hdecode]
        split_ifs with hmax
        · rcases @ih (avail - k) (by omega) rest (by omega) (sc ++ encode (t cp)) with herror | ⟨cps, hok, hcps, hlength⟩
          · exact .inl herror
          · refine .inr ⟨cp :: cps, ?_, List.forall_mem_cons.mpr ⟨hmax, hcps⟩, fun hshort => ?_⟩
            · rw [hok, List.map_cons, List.flatMap_cons, List.append_assoc]
            · have hcp := hshort cp
              have hall := hlength hshort
              rw [List.map_cons, List.flatMap_cons, List.length_append, length_encode]
              omega
        · exact .inl rfl

theorem utf8canonicalLoop_flatMap {cps : List ℕ} (h : ∀ cp ∈ cps, cp ≤ maxCodePoint ∧ t cp = cp) (sc : Bytes) :
    utf8canonicalLoop t (cps.flatMap encode).length (cps.flatMap encode) sc = .ok (sc ++ cps.flatMap encode) := by
  induction cps generalizing sc with
  | nil => rw [List.flatMap_nil, List.length_nil, utf8canonicalLoop, List.append_nil]
  | cons cp cps ih =>
    obtain ⟨⟨hmax, ht⟩, hcps⟩ := List.forall_mem_cons.mp h
    have hlength : (encode cp ++ cps.flatMap encode).length = more cp + (cps.flatMap encode).length + 1 := by
      rw [List.length_append, length_encode]
      omega
    rw [List.flatMap_cons, hlength, utf8canonicalLoop_succ (decode_encode hmax _), ht, if_pos hmax, Nat.add_sub_cancel_left, ih hcps, List.append_assoc]

end Velkavo.Common

namespace Velkavo.Wallet

open ByteCodec Utf8 Common

/-- Controls, and the two characters that XML or HTML would need. -/
def sanitizedChar (c : ℕ) : ℕ :=
  if c < 0x20 ∨ c = 0x7f ∨ 0x80 ≤ c ∧ c ≤ 0x9f then 0x3f else if c = 0x3c ∨ c = 0x3e then 0x3f else c

def illegalText : Bytes := ascii "(Illegal UTF-8 string)"

/-- An error is left where the input is read past its end. -/
def getSanitizedText (text : Bytes) (maxLength : ℕ) : Except Fault Bytes :=
  match utf8canonical sanitizedChar (text.take (min text.length maxLength)) with
  | .ok sanitizedText => .ok sanitizedText
  | .error .invalid => .ok illegalText
  | .error .pastEnd => .error .pastEnd

structure IsClean (cp : ℕ) : Prop where
  le : cp ≤ maxCodePoint
  not_control : ¬(cp < 0x20 ∨ cp = 0x7f ∨ 0x80 ≤ cp ∧ cp ≤ 0x9f)
  not_angle : cp ≠ 0x3c ∧ cp ≠ 0x3e

def CleanText (text : Bytes) : Prop := ∃ cps : List ℕ, (∀ cp ∈ cps, IsClean cp) ∧ text = cps.flatMap encode

theorem sanitizedChar_cases (c : ℕ) :
    sanitizedChar c = 0x3f ∨ sanitizedChar c = c ∧ ¬(c < 0x20 ∨ c = 0x7f ∨ 0x80 ≤ c ∧ c ≤ 0x9f) ∧ c ≠ 0x3c ∧ c ≠ 0x3e := by
  rw [sanitizedChar]
  split_ifs with hcontrol hangle
  · exact .inl rfl
  · exact .inl rfl
  · exact .inr ⟨rfl, hcontrol, not_or.mp hangle⟩

theorem isClean_sanitizedChar {c : ℕ} (h : sanitizedChar c ≤ maxCodePoint) : IsClean (sanitizedChar c) := by
  rcases sanitizedChar_cases c with hmark | ⟨hsame, hcontrol, hangle⟩
  · rw [hmark]
    exact ⟨by decide, by decide, by decide⟩
  · rw [hsame] at h ⊢
    exact ⟨h, hcontrol, hangle⟩

theorem more_sanitizedChar_le (c : ℕ) : more (sanitizedChar c) ≤ more c := by
  rcases sanitizedChar_cases c with hmark | ⟨hsame, -⟩
  · rw [hmark]
    exact Nat.zero_le _
  · rw [hsame]

theorem IsClean.sanitizedChar_eq {cp : ℕ} (h : IsClean cp) : sanitizedChar cp = cp := by
  rw [sanitizedChar, if_neg h.not_control, if_neg (not_or.mpr h.not_angle)]

theorem sanitized_text_clean :
    (∀ t s, utf8canonical t s ≠ .error .pastEnd) ∧
      ∀ text maxLength, ∃ r, getSanitizedText text maxLength = .ok r ∧
        (r = illegalText ∨ CleanText r ∧ r.length ≤ maxLength) ∧
        (CleanText text → text.length ≤ maxLength → r = text) := by
  refine ⟨fun t s hpast => ?_, fun text maxLength => ?_⟩
  · rcases @utf8canonicalLoop_cases t _ s rfl [] with herror | ⟨cps, hok, -⟩
    · cases hpast.symm.trans herror
    · cases hpast.symm.trans hok
  · have hsame : CleanText text → text.length ≤ maxLength →
        utf8canonical sanitizedChar (text.take (min text.length maxLength)) = .ok text := by
      rintro ⟨cps, hcps, rfl⟩ hlength
      rw [Nat.min_eq_left hlength, List.take_length]
      exact utf8canonicalLoop_flatMap (fun cp hcp => ⟨(hcps cp hcp).le, (hcps cp hcp).sanitizedChar_eq⟩) []
    rw [getSanitizedText]
    rcases @utf8canonicalLoop_cases sanitizedChar _ (text.take (min text.length maxLength)) rfl [] with
      herror | ⟨cps, hok, hcps, hlength⟩
    · have herror : utf8canonical sanitizedChar (text.take (min text.length maxLength)) = .error .invalid := herror
      rw [herror]
      exact ⟨_, rfl, .inl rfl, fun hclean hle => by cases herror.symm.trans (hsame hclean hle)⟩
    · have hok : utf8canonical sanitizedChar (text.take (min text.length maxLength)) = .ok ((cps.map sanitizedChar).flatMap encode) := hok
      rw [hok]
      refine ⟨_, rfl, .inr ⟨⟨_, fun cp hcp => ?_, rfl⟩, ?_⟩, fun hclean hle => Except.ok.inj (hok.symm.trans (hsame hclean hle))⟩
      · obtain ⟨c, hc, rfl⟩ := List.mem_map.mp hcp
        exact isClean_sanitizedChar (hcps c hc)
      · refine (hlength more_sanitizedChar_le).trans ?_
        rw [List.length_take]
        omega

end Velkavo.Wallet
