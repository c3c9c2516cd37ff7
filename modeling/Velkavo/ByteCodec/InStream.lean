import Velkavo.ByteCodec.Text

namespace ByteCodec

structure InStream where
  rest : Bytes
  eof : Bool
  fail : Bool
  deriving DecidableEq, Repr

namespace InStream

def opened : Option Bytes → InStream
  | none => ⟨[], false, true⟩
  | some bytes => ⟨bytes, false, false⟩

def extractChar (s : InStream) : Option UInt8 × InStream :=
  if s.eof || s.fail then (none, { s with fail := true })
  else
    match s.rest.dropWhile isSpace with
    | [] => (none, ⟨[], true, true⟩)
    | c :: rest => (some c, ⟨rest, false, false⟩)

def extractChars : ℕ → InStream → Bytes × InStream
  | 0, s => ([], s)
  | fuel + 1, s =>
    match s.extractChar with
    | (none, s) => ([], s)
    | (some c, s) => ((c :: (extractChars fuel s).1), (extractChars fuel s).2)

def chars (s : InStream) : Bytes × InStream := extractChars (s.rest.length + 1) s

theorem length_rest_extractChar {s s' : InStream} {c : UInt8} (h : s.extractChar = (some c, s')) :
    s'.rest.length < s.rest.length := by
  have hle : (s.rest.dropWhile isSpace).length ≤ s.rest.length := (List.dropWhile_suffix isSpace).length_le
  rw [extractChar] at h
  split_ifs at h
  · simp at h
  · cases hdrop : s.rest.dropWhile isSpace with
    | nil => rw [hdrop] at h; simp at h
    | cons d rest =>
      rw [hdrop] at h hle
      obtain ⟨-, rfl⟩ := Prod.mk.inj h
      exact hle

theorem fail_extractChar {s s' : InStream} (h : s.extractChar = (none, s')) : s'.fail = true := by
  rw [extractChar] at h
  split_ifs at h
  · rw [← (Prod.mk.inj h).2]
  · cases hdrop : s.rest.dropWhile isSpace with
    | nil =>
      rw [hdrop] at h
      rw [← (Prod.mk.inj h).2]
    | cons c rest =>
      rw [hdrop] at h
      simp at h

theorem fail_extractChars {fuel : ℕ} {s : InStream} (h : s.rest.length < fuel) :
    (extractChars fuel s).2.fail = true := by
  induction fuel generalizing s with
  | zero => exact absurd h (Nat.not_lt_zero _)
  | succ fuel ih =>
    rw [extractChars]
    rcases hstep : s.extractChar with ⟨_ | c, s'⟩
    · exact fail_extractChar hstep
    · have hlt := length_rest_extractChar hstep
      exact ih (by omega)

theorem fail_chars (s : InStream) : s.chars.2.fail = true := fail_extractChars (Nat.lt_succ_self _)

end InStream

end ByteCodec
