import Velkavo.ByteCodec.Codec
import Mathlib.Data.Nat.Bitwise
import Mathlib.Tactic.Linarith
import Mathlib.Tactic.Ring

namespace ByteCodec

def writeVarintLoop : ℕ → ℕ → Bytes
  | 0, n => [UInt8.ofNat n]
  | fuel + 1, n =>
    if n ≥ 0x80 then UInt8.ofNat ((n &&& 0x7f) ||| 0x80) :: writeVarintLoop fuel (n >>> 7)
    else [UInt8.ofNat n]

def writeVarint (n : ℕ) : Bytes := writeVarintLoop n n

/-- A byte that does not fit in `bits`, or a final zero byte, is an error. -/
def readVarintLoop (p : AtEnd) (bits : ℕ) : ℕ → ℕ → Bytes → Option (ℕ × Bytes)
  | _, value, [] =>
    match p with
    | .accept => some (value, [])
    | .reject => none
  | shift, value, b :: bs =>
    if shift + 7 ≥ bits ∧ b.toNat ≥ 1 <<< (bits - shift) then none
    else if b = 0 ∧ shift ≠ 0 then none
    else
      let value := value ||| ((b.toNat &&& 0x7f) <<< shift)
      if b.toNat &&& 0x80 = 0 then some (value, bs) else readVarintLoop p bits (shift + 7) value bs

def readVarint (p : AtEnd) (bits : ℕ) (bs : Bytes) : Option (ℕ × Bytes) := readVarintLoop p bits 0 0 bs

theorem and_low (n : ℕ) : n &&& 0x7f = n % 128 := Nat.and_two_pow_sub_one_eq_mod n 7

theorem or_high {n : ℕ} (h : n < 128) : n ||| 0x80 = n + 128 := by
  have he := Nat.two_pow_add_eq_or_of_lt (i := 7) (by simpa using h) 1
  rw [Nat.or_comm] at he
  simpa [Nat.add_comm] using he.symm

theorem and_high {n : ℕ} (h : n < 256) : n &&& 0x80 = 0 ↔ n < 128 := by
  have hbit : n &&& 0x80 = (n.testBit 7).toNat * 128 := Nat.and_two_pow n 7
  rw [hbit, Nat.testBit_eq_decide_div_mod_eq]
  by_cases hn : n < 128
  · simp [Nat.div_eq_of_lt hn, hn]
  · have hdiv : n / 128 = 1 := by omega
    simp [hdiv, hn]

theorem or_shift {v s : ℕ} (k : ℕ) (h : v < 2 ^ s) : v ||| (k <<< s) = v + k * 2 ^ s := by
  rw [Nat.shiftLeft_eq, Nat.or_comm, Nat.mul_comm k, ← Nat.two_pow_add_eq_or_of_lt h, Nat.add_comm]

theorem writeVarintLoop_eq (f g n : ℕ) (hf : n ≤ f) (hg : n ≤ g) :
    writeVarintLoop f n = writeVarintLoop g n := by
  induction f generalizing g n with
  | zero =>
    have hn : n = 0 := by omega
    subst hn
    cases g <;> simp [writeVarintLoop]
  | succ f ih =>
    cases g with
    | zero =>
      have hn : n = 0 := by omega
      simp [writeVarintLoop, hn]
    | succ g =>
      simp only [writeVarintLoop]
      split
      · rw [ih g (n >>> 7) (by simp only [Nat.shiftRight_eq_div_pow]; omega)
          (by simp only [Nat.shiftRight_eq_div_pow]; omega)]
      · rfl

theorem writeVarint_small {n : ℕ} (h : n < 128) : writeVarint n = [UInt8.ofNat n] := by
  cases n with
  | zero => rfl
  | succ n => simp [writeVarint, writeVarintLoop, show ¬ (128 ≤ n + 1) by omega]

theorem writeVarint_large {n : ℕ} (h : 128 ≤ n) :
    writeVarint n = UInt8.ofNat (n % 128 + 128) :: writeVarint (n / 128) := by
  obtain ⟨k, rfl⟩ : ∃ k, n = k + 1 := ⟨n - 1, by omega⟩
  rw [writeVarint, writeVarintLoop, if_pos h, and_low, or_high (Nat.mod_lt _ (by decide)),
    Nat.shiftRight_eq_div_pow, writeVarint]
  congr 1
  exact writeVarintLoop_eq _ _ _ (by omega) (le_refl _)

theorem writeVarint_ne_nil (n : ℕ) : writeVarint n ≠ [] := by
  by_cases h : n < 128
  · simp [writeVarint_small h]
  · simp [writeVarint_large (by omega : 128 ≤ n)]

theorem toNat_ofNat {n : ℕ} (h : n < 256) : (UInt8.ofNat n).toNat = n := by
  rw [UInt8.toNat_ofNat']
  exact Nat.mod_eq_of_lt h

theorem readVarintLoop_cons (p : AtEnd) (bits : ℕ) {s v : ℕ} (b : UInt8) (bs : Bytes) (hv : v < 2 ^ s) :
    readVarintLoop p bits s v (b :: bs) =
      if s + 7 ≥ bits ∧ b.toNat ≥ 2 ^ (bits - s) then none
      else if b.toNat = 0 ∧ s ≠ 0 then none
      else if b.toNat < 128 then some (v + b.toNat * 2 ^ s, bs)
      else readVarintLoop p bits (s + 7) (v + (b.toNat % 128) * 2 ^ s) bs := by
  have hb : b = 0 ↔ b.toNat = 0 := by rw [← UInt8.toNat_inj]; rfl
  rw [readVarintLoop]
  simp only [Nat.one_shiftLeft, hb, and_low, or_shift _ hv, and_high b.toNat_lt]
  by_cases hlt : b.toNat < 128
  · simp [hlt, Nat.mod_eq_of_lt hlt]
  · simp [hlt]

theorem accumulate_lt {v s k : ℕ} (hv : v < 2 ^ s) (hk : k < 128) : v + k * 2 ^ s < 2 ^ (s + 7) := by
  have hs : 2 ^ (s + 7) = 128 * 2 ^ s := by rw [pow_add]; ring
  have hm : (k + 1) * 2 ^ s ≤ 128 * 2 ^ s := Nat.mul_le_mul_right _ (by omega)
  rw [hs]
  nlinarith

theorem readVarintLoop_write (p : AtEnd) (bits n : ℕ) : ∀ (s v : ℕ) (rest : Bytes), v < 2 ^ s →
    v + n * 2 ^ s < 2 ^ bits → (s ≠ 0 → n ≠ 0) →
    readVarintLoop p bits s v (writeVarint n ++ rest) = some (v + n * 2 ^ s, rest) := by
  induction n using Nat.strongRecOn with
  | ind n ih =>
    intro s v rest hv hn h0
    have hsb : n ≠ 0 → s ≤ bits := by
      intro hne
      apply (Nat.pow_le_pow_iff_right (by decide : 1 < 2)).mp
      nlinarith [Nat.pos_of_ne_zero hne, Nat.two_pow_pos s]
    by_cases hlt : n < 128
    · rw [writeVarint_small hlt, List.singleton_append, readVarintLoop_cons p bits _ _ hv,
        toNat_ofNat (by omega)]
      have hfit : ¬ (s + 7 ≥ bits ∧ n ≥ 2 ^ (bits - s)) := by
        rintro ⟨-, hge⟩
        have hne : n ≠ 0 := by have := Nat.two_pow_pos (bits - s); omega
        have hsplit : 2 ^ bits = 2 ^ (bits - s) * 2 ^ s := by
          rw [← pow_add, Nat.sub_add_cancel (hsb hne)]
        have := Nat.mul_le_mul_right (2 ^ s) hge
        omega
      rw [if_neg hfit, if_neg (by rintro ⟨hz, hs⟩; exact h0 hs hz), if_pos hlt]
    · have hge : 128 ≤ n := by omega
      have hmod : n % 128 < 128 := Nat.mod_lt _ (by decide)
      rw [writeVarint_large hge, List.cons_append, readVarintLoop_cons p bits _ _ hv,
        toNat_ofNat (by omega)]
      have hs : 2 ^ (s + 7) = 128 * 2 ^ s := by rw [pow_add]; ring
      have hfit : ¬ (s + 7 ≥ bits ∧ n % 128 + 128 ≥ 2 ^ (bits - s)) := by
        rintro ⟨hle, -⟩
        have h₁ : 2 ^ bits ≤ 2 ^ (s + 7) := Nat.pow_le_pow_right (by decide) hle
        have h₂ : 128 * 2 ^ s ≤ n * 2 ^ s := Nat.mul_le_mul_right _ hge
        omega
      have hsum : v + n % 128 * 2 ^ s + n / 128 * 2 ^ (s + 7) = v + n * 2 ^ s := by
        have hd : n % 128 + 128 * (n / 128) = n := Nat.mod_add_div n 128
        calc v + n % 128 * 2 ^ s + n / 128 * 2 ^ (s + 7)
            = v + (n % 128 + 128 * (n / 128)) * 2 ^ s := by rw [hs]; ring
          _ = v + n * 2 ^ s := by rw [hd]
      have hmod' : (n % 128 + 128) % 128 = n % 128 := by omega
      rw [if_neg hfit, if_neg (by omega), if_neg (by omega), hmod',
        ih (n / 128) (by omega) (s + 7) _ rest (accumulate_lt hv hmod) (by omega) (by omega), hsum]

theorem readVarintLoop_lt (p : AtEnd) (bits : ℕ) (bs : Bytes) : ∀ (s v w : ℕ) (rest : Bytes),
    v < 2 ^ s → s ≤ bits → readVarintLoop p bits s v bs = some (w, rest) → w < 2 ^ bits := by
  induction bs with
  | nil =>
    intro s v w rest hv hs h
    have hle : 2 ^ s ≤ 2 ^ bits := Nat.pow_le_pow_right (by decide) hs
    cases p <;> simp [readVarintLoop] at h
    omega
  | cons b bs ih =>
    intro s v w rest hv hs h
    rw [readVarintLoop_cons p bits _ _ hv] at h
    split at h
    · simp at h
    · rename_i hfit
      split at h
      · simp at h
      split at h
      · rename_i hlt
        obtain ⟨rfl, -⟩ := Prod.mk.inj (Option.some.inj h)
        by_cases hle : s + 7 ≥ bits
        · have hb : b.toNat < 2 ^ (bits - s) := by
            by_contra hge
            exact hfit ⟨hle, by omega⟩
          have hsplit : 2 ^ bits = 2 ^ (bits - s) * 2 ^ s := by
            rw [← pow_add, Nat.sub_add_cancel hs]
          rw [hsplit]
          nlinarith
        · have hlt' := accumulate_lt hv hlt
          have hle' : 2 ^ (s + 7) ≤ 2 ^ bits := Nat.pow_le_pow_right (by decide) (by omega)
          omega
      · rename_i hge
        have hle : s + 7 ≤ bits := by
          by_contra hgt
          apply hfit
          have hp : 2 ^ (bits - s) ≤ 2 ^ 7 := Nat.pow_le_pow_right (by decide) (by omega)
          exact ⟨by omega, by omega⟩
        exact ih (s + 7) _ w rest (accumulate_lt hv (Nat.mod_lt _ (by decide))) hle h

theorem readVarintLoop_canonical (bits : ℕ) (bs : Bytes) : ∀ (s v w : ℕ) (rest : Bytes), v < 2 ^ s →
    readVarintLoop .reject bits s v bs = some (w, rest) →
    ∃ n, w = v + n * 2 ^ s ∧ bs = writeVarint n ++ rest ∧ (s ≠ 0 → n ≠ 0) := by
  induction bs with
  | nil => intro s v w rest hv h; simp [readVarintLoop] at h
  | cons b bs ih =>
    intro s v w rest hv h
    rw [readVarintLoop_cons .reject bits _ _ hv] at h
    split at h
    · simp at h
    · split at h
      · simp at h
      · rename_i hz
        split at h
        · rename_i hlt
          obtain ⟨rfl, rfl⟩ := Prod.mk.inj (Option.some.inj h)
          refine ⟨b.toNat, rfl, ?_, fun hs h0 => hz ⟨h0, hs⟩⟩
          rw [writeVarint_small hlt, UInt8.ofNat_toNat, List.singleton_append]
        · rename_i hge
          have hmod : b.toNat % 128 < 128 := Nat.mod_lt _ (by decide)
          obtain ⟨n, rfl, rfl, hn⟩ := ih (s + 7) _ w rest (accumulate_lt hv hmod) h
          have hb := b.toNat_lt
          have hpos : n ≠ 0 := hn (by omega)
          refine ⟨b.toNat % 128 + 128 * n, ?_, ?_, fun _ => by omega⟩
          · rw [pow_add]; ring
          · have hge' : 128 ≤ b.toNat % 128 + 128 * n := by omega
            rw [writeVarint_large hge', List.cons_append]
            have h₁ : (b.toNat % 128 + 128 * n) % 128 + 128 = b.toNat := by omega
            have h₂ : (b.toNat % 128 + 128 * n) / 128 = n := by omega
            rw [h₁, h₂, UInt8.ofNat_toNat]

theorem readVarintLoop_reject_of_accept {bits : ℕ} {bs rest : Bytes} {w : ℕ} (hrest : rest ≠ []) {shift value : ℕ}
    (h : readVarintLoop .accept bits shift value bs = some (w, rest)) :
    readVarintLoop .reject bits shift value bs = some (w, rest) := by
  induction bs generalizing shift value with
  | nil =>
    obtain ⟨-, hnil⟩ := Prod.mk.inj (Option.some.inj h)
    exact absurd hnil.symm hrest
  | cons b bs ih =>
    rw [readVarintLoop] at h ⊢
    dsimp only at h ⊢
    split_ifs at h ⊢
    · exact h
    · exact ih h

theorem readVarint_reject_of_accept {bits : ℕ} {bs rest : Bytes} {w : ℕ} (h : readVarint .accept bits bs = some (w, rest))
    (hrest : rest ≠ []) : readVarint .reject bits bs = some (w, rest) := readVarintLoop_reject_of_accept hrest h

namespace Codec

def varint (bits : ℕ) : Codec ℕ where
  valid n := decide (n < 2 ^ bits)
  kept n := n
  write := writeVarint
  read p bs := readVarint p bits bs
  read_write p n rest hv := by
    have hn : n < 2 ^ bits := by simpa using hv
    simpa [readVarint] using
      readVarintLoop_write p bits n 0 0 rest (by simp) (by simpa using hn) (by simp)
  valid_of_read h := by
    simpa using readVarintLoop_lt _ bits _ 0 0 _ _ (by simp) (Nat.zero_le _) h
  write_of_read h := by
    obtain ⟨n, rfl, rfl, -⟩ := readVarintLoop_canonical bits _ 0 0 _ _ (by simp) h
    simp

instance (bits : ℕ) : Exact (varint bits) := ⟨fun _ => rfl⟩

end Codec

end ByteCodec
