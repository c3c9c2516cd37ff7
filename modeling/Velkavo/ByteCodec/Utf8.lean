import Velkavo.ByteCodec.Varint
import Mathlib.Tactic.IntervalCases

/-! Code points as bytes, and a reader that only looks at the first byte of each to tell how many there are. -/

namespace Utf8

open ByteCodec

inductive Fault
  | invalid
  | pastEnd
  deriving DecidableEq

def maxCodePoint : ℕ := 0x10ffff

def more (cp : ℕ) : ℕ := if cp ≤ 0x7f then 0 else if cp ≤ 0x7ff then 1 else if cp ≤ 0xffff then 2 else 3

def encodeAs (cp : ℕ) : ℕ → Bytes
  | 0 => [UInt8.ofNat cp]
  | 1 => [UInt8.ofNat (0xc0 ||| cp >>> 6), UInt8.ofNat (0x80 ||| cp % 64)]
  | 2 => [UInt8.ofNat (0xe0 ||| cp >>> 12), UInt8.ofNat (0x80 ||| (cp >>> 6) % 64), UInt8.ofNat (0x80 ||| cp % 64)]
  | _ => [UInt8.ofNat (0xf0 ||| cp >>> 18), UInt8.ofNat (0x80 ||| (cp >>> 12) % 64), UInt8.ofNat (0x80 ||| (cp >>> 6) % 64),
      UInt8.ofNat (0x80 ||| cp % 64)]

def encode (cp : ℕ) : Bytes := encodeAs cp (more cp)

def IsScalar (cp : ℕ) : Prop := cp ≤ maxCodePoint ∧ ¬(0xd800 ≤ cp ∧ cp ≤ 0xdfff)

def next : Bytes → Except Fault (UInt8 × Bytes)
  | [] => .error .pastEnd
  | c :: s => .ok (c, s)

/-- The code point at `ptr`, its continuation bytes and what follows, with `avail` bytes after the first. -/
def decode (avail : ℕ) (ptr : Bytes) : Except Fault (ℕ × ℕ × Bytes) := do
  let (c, ptr) ← next ptr
  if c &&& 0x80 = 0 then pure (c.toNat, 0, ptr)
  else if c &&& 0xe0 = 0xc0 then
    if avail < 1 then throw .invalid
    else do
      let (c₁, ptr) ← next ptr
      pure ((c.toNat % 32) <<< 6 ||| c₁.toNat % 64, 1, ptr)
  else if c &&& 0xf0 = 0xe0 then
    if avail < 2 then throw .invalid
    else do
      let (c₁, ptr) ← next ptr
      let (c₂, ptr) ← next ptr
      pure ((c.toNat % 16) <<< 12 ||| (c₁.toNat % 64) <<< 6 ||| c₂.toNat % 64, 2, ptr)
  else if c &&& 0xf8 = 0xf0 then
    if avail < 3 then throw .invalid
    else do
      let (c₁, ptr) ← next ptr
      let (c₂, ptr) ← next ptr
      let (c₃, ptr) ← next ptr
      pure ((c.toNat % 8) <<< 18 ||| (c₁.toNat % 64) <<< 12 ||| (c₂.toNat % 64) <<< 6 ||| c₃.toNat % 64, 3, ptr)
  else throw .invalid

theorem length_encodeAs (cp : ℕ) {k : ℕ} (h : k ≤ 3) : (encodeAs cp k).length = k + 1 := by
  interval_cases k <;> rfl

theorem more_le (cp : ℕ) : more cp ≤ 3 := by
  rw [more]
  split_ifs <;> omega

theorem length_encode (cp : ℕ) : (encode cp).length = more cp + 1 := length_encodeAs cp (more_le cp)

theorem or_two (a : ℕ) {b : ℕ} (hb : b < 64) : a <<< 6 ||| b = a * 64 + b := by
  rw [← Nat.shiftLeft_add_eq_or_of_lt (i := 6) hb, Nat.shiftLeft_eq]

theorem or_three (a : ℕ) {b c : ℕ} (hb : b < 64) (hc : c < 64) : a <<< 12 ||| b <<< 6 ||| c = (a * 64 + b) * 64 + c := by
  have hshift : a <<< 12 ||| b <<< 6 = (a <<< 6 ||| b) <<< 6 := by rw [Nat.shiftLeft_or_distrib, ← Nat.shiftLeft_add]
  rw [hshift, or_two _ hc, or_two _ hb]

theorem or_four (a : ℕ) {b c d : ℕ} (hb : b < 64) (hc : c < 64) (hd : d < 64) :
    a <<< 18 ||| b <<< 12 ||| c <<< 6 ||| d = ((a * 64 + b) * 64 + c) * 64 + d := by
  have hshift : a <<< 18 ||| b <<< 12 ||| c <<< 6 = (a <<< 12 ||| b <<< 6 ||| c) <<< 6 := by
    rw [Nat.shiftLeft_or_distrib, Nat.shiftLeft_or_distrib, ← Nat.shiftLeft_add, ← Nat.shiftLeft_add]
  rw [hshift, or_two _ hd, or_three _ hb hc]

theorem more_le_of_lt {cp k : ℕ} (hk : k ≤ 3) (h : k = 0 ∧ cp < 128 ∨ k = 1 ∧ cp < 2048 ∨ k = 2 ∧ cp < 65536 ∨ k = 3) : more cp ≤ k := by
  rw [more]
  split_ifs <;> omega

theorem decode_cases {avail : ℕ} {ptr : Bytes} (h : ptr.length = avail + 1) :
    decode avail ptr = .error .invalid ∨
      ∃ cp k rest, decode avail ptr = .ok (cp, k, rest) ∧ rest.length + k = avail ∧ more cp ≤ k := by
  have hlow : ∀ n : ℕ, n % 64 < 64 := fun n => Nat.mod_lt _ (by decide)
  cases ptr with
  | nil => cases h
  | cons c ptr =>
    rw [List.length_cons, Nat.add_right_cancel_iff] at h
    change (if c &&& 0x80 = 0 then _ else _) = _ ∨ ∃ cp k rest, (if c &&& 0x80 = 0 then _ else _) = _ ∧ _
    split_ifs with h₁ h₂ ha h₃ ha h₄ ha
    · refine .inr ⟨_, 0, ptr, rfl, h, more_le_of_lt (by omega) (.inl ⟨rfl, ?_⟩)⟩
      exact (and_high c.toNat_lt).mp (congrArg UInt8.toNat h₁)
    · exact .inl rfl
    · rcases ptr with _ | ⟨c₁, ptr⟩
      · exact absurd h.symm.le (by simpa using ha)
      · refine .inr ⟨_, 1, ptr, rfl, h, more_le_of_lt (by omega) (.inr (.inl ⟨rfl, ?_⟩))⟩
        rw [or_two _ (hlow _)]
        omega
    · exact .inl rfl
    · rcases ptr with _ | ⟨c₁, _ | ⟨c₂, ptr⟩⟩
      · exact absurd h.symm.le (by simp at ha ⊢; omega)
      · exact absurd h.symm.le (by simp at ha ⊢; omega)
      · refine .inr ⟨_, 2, ptr, rfl, h, more_le_of_lt (by omega) (.inr (.inr (.inl ⟨rfl, ?_⟩)))⟩
        rw [or_three _ (hlow _) (hlow _)]
        omega
    · exact .inl rfl
    · rcases ptr with _ | ⟨c₁, _ | ⟨c₂, _ | ⟨c₃, ptr⟩⟩⟩
      · exact absurd h.symm.le (by simp at ha ⊢; omega)
      · exact absurd h.symm.le (by simp at ha ⊢; omega)
      · exact absurd h.symm.le (by simp at ha ⊢; omega)
      · exact .inr ⟨_, 3, ptr, rfl, h, more_le _⟩
    · exact .inl rfl

theorem lead_one : ∀ n < 128, UInt8.ofNat n &&& 0x80 = 0 ∧ (UInt8.ofNat n).toNat = n := by decide

theorem lead_two : ∀ n < 32, UInt8.ofNat (0xc0 ||| n) &&& 0x80 ≠ 0 ∧ UInt8.ofNat (0xc0 ||| n) &&& 0xe0 = 0xc0 ∧
    (UInt8.ofNat (0xc0 ||| n)).toNat % 32 = n := by decide

theorem lead_three : ∀ n < 16, UInt8.ofNat (0xe0 ||| n) &&& 0x80 ≠ 0 ∧ UInt8.ofNat (0xe0 ||| n) &&& 0xe0 ≠ 0xc0 ∧
    UInt8.ofNat (0xe0 ||| n) &&& 0xf0 = 0xe0 ∧ (UInt8.ofNat (0xe0 ||| n)).toNat % 16 = n := by decide

theorem lead_four : ∀ n < 8, UInt8.ofNat (0xf0 ||| n) &&& 0x80 ≠ 0 ∧ UInt8.ofNat (0xf0 ||| n) &&& 0xe0 ≠ 0xc0 ∧
    UInt8.ofNat (0xf0 ||| n) &&& 0xf0 ≠ 0xe0 ∧ UInt8.ofNat (0xf0 ||| n) &&& 0xf8 = 0xf0 ∧
    (UInt8.ofNat (0xf0 ||| n)).toNat % 8 = n := by decide

theorem tail : ∀ n < 64, (UInt8.ofNat (0x80 ||| n)).toNat % 64 = n := by decide

theorem encode_ascii {cp : ℕ} (h : cp < 128) : encode cp = [UInt8.ofNat cp] := by
  rw [encode, more, if_pos (by omega)]
  rfl

theorem high_lead : ∀ n < 64, 128 ≤ (UInt8.ofNat (0x80 ||| n)).toNat ∧ 128 ≤ (UInt8.ofNat (0xc0 ||| n)).toNat ∧
    128 ≤ (UInt8.ofNat (0xe0 ||| n)).toNat ∧ 128 ≤ (UInt8.ofNat (0xf0 ||| n)).toNat := by decide

theorem encode_high {cp : ℕ} (h : 128 ≤ cp) (hmax : cp ≤ maxCodePoint) {b : UInt8} (hb : b ∈ encode cp) : 128 ≤ b.toNat := by
  have htail : ∀ n : ℕ, 128 ≤ (UInt8.ofNat (0x80 ||| n % 64)).toNat := fun n => (high_lead _ (Nat.mod_lt _ (by decide))).1
  rw [maxCodePoint] at hmax
  rw [encode, more, if_neg (by omega)] at hb
  split_ifs at hb with h₂ h₃
  · simp only [encodeAs, List.mem_cons, List.not_mem_nil, or_false] at hb
    rcases hb with rfl | rfl
    · exact (high_lead _ (by rw [Nat.shiftRight_eq_div_pow]; omega)).2.1
    · exact htail _
  · simp only [encodeAs, List.mem_cons, List.not_mem_nil, or_false] at hb
    rcases hb with rfl | rfl | rfl
    · exact (high_lead _ (by rw [Nat.shiftRight_eq_div_pow]; omega)).2.2.1
    · exact htail _
    · exact htail _
  · simp only [encodeAs, List.mem_cons, List.not_mem_nil, or_false] at hb
    rcases hb with rfl | rfl | rfl | rfl
    · exact (high_lead _ (by rw [Nat.shiftRight_eq_div_pow]; omega)).2.2.2
    · exact htail _
    · exact htail _
    · exact htail _

theorem decode_encode {cp : ℕ} (h : cp ≤ maxCodePoint) (rest : Bytes) :
    decode (more cp + rest.length) (encode cp ++ rest) = .ok (cp, more cp, rest) := by
  have hlow : ∀ n : ℕ, n % 64 < 64 := fun n => Nat.mod_lt _ (by decide)
  rw [maxCodePoint] at h
  rw [encode, more]
  split_ifs with h₁ h₂ h₃
  · obtain ⟨hlead, hvalue⟩ := lead_one cp (by omega)
    refine (if_pos hlead).trans ?_
    rw [hvalue]
    rfl
  · obtain ⟨hone, hlead, hvalue⟩ := lead_two (cp >>> 6) (by rw [Nat.shiftRight_eq_div_pow]; omega)
    refine (if_neg hone).trans ((if_pos hlead).trans ((if_neg (by omega)).trans ?_))
    change Except.ok (_ <<< 6 ||| _, 1, rest) = _
    rw [or_two _ (hlow _), hvalue, tail _ (hlow _), Nat.shiftRight_eq_div_pow, Nat.div_add_mod']
  · obtain ⟨hone, htwo, hlead, hvalue⟩ := lead_three (cp >>> 12) (by rw [Nat.shiftRight_eq_div_pow]; omega)
    refine (if_neg hone).trans ((if_neg htwo).trans ((if_pos hlead).trans ((if_neg (by omega)).trans ?_)))
    change Except.ok (_ <<< 12 ||| _ <<< 6 ||| _, 2, rest) = _
    rw [or_three _ (hlow _) (hlow _), hvalue, tail _ (hlow _), tail _ (hlow _), Nat.shiftRight_eq_div_pow, Nat.shiftRight_eq_div_pow]
    congr 2
    omega
  · obtain ⟨hone, htwo, hthree, hlead, hvalue⟩ := lead_four (cp >>> 18) (by rw [Nat.shiftRight_eq_div_pow]; omega)
    refine (if_neg hone).trans ((if_neg htwo).trans ((if_neg hthree).trans ((if_pos hlead).trans ((if_neg (by omega)).trans ?_))))
    change Except.ok (_ <<< 18 ||| _ <<< 12 ||| _ <<< 6 ||| _, 3, rest) = _
    rw [or_four _ (hlow _) (hlow _) (hlow _), hvalue, tail _ (hlow _), tail _ (hlow _), tail _ (hlow _), Nat.shiftRight_eq_div_pow,
      Nat.shiftRight_eq_div_pow, Nat.shiftRight_eq_div_pow]
    congr 2
    omega

theorem encode_append_inj {a b : ℕ} (ha : a ≤ maxCodePoint) (hb : b ≤ maxCodePoint) {s t : Bytes}
    (h : encode a ++ s = encode b ++ t) : a = b ∧ s = t := by
  have hlength := congrArg List.length h
  rw [List.length_append, List.length_append, length_encode, length_encode] at hlength
  have hdecode := decode_encode ha s
  rw [h, show more a + s.length = more b + t.length by omega, decode_encode hb t] at hdecode
  cases hdecode
  exact ⟨rfl, rfl⟩

theorem flatMap_encode_inj {l m : List ℕ} (hl : ∀ cp ∈ l, cp ≤ maxCodePoint) (hm : ∀ cp ∈ m, cp ≤ maxCodePoint)
    (h : l.flatMap encode = m.flatMap encode) : l = m := by
  have hne : ∀ cp s, encode cp ++ s ≠ [] := fun cp s hnil => by
    have := congrArg List.length hnil
    rw [List.length_append, length_encode, List.length_nil] at this
    omega
  induction l generalizing m with
  | nil =>
    cases m with
    | nil => rfl
    | cons b m => exact absurd h.symm (hne b _)
  | cons a l ih =>
    cases m with
    | nil => exact absurd h (hne a _)
    | cons b m =>
      rw [List.forall_mem_cons] at hl hm
      obtain ⟨rfl, hrest⟩ := encode_append_inj hl.1 hm.1 h
      rw [ih hl.2 hm.2 hrest]

end Utf8
