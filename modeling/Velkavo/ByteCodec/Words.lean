import Velkavo.ByteCodec.Formats

namespace ByteCodec

theorem ofLittleEndian_append (bs bs' : Bytes) :
    ofLittleEndian (bs ++ bs') = ofLittleEndian bs + 256 ^ bs.length * ofLittleEndian bs' := by
  induction bs with
  | nil => simp [ofLittleEndian]
  | cons b bs ih =>
    rw [List.cons_append, ofLittleEndian, ofLittleEndian, ih, List.length_cons, pow_succ]
    ring

def word (bs : Bytes) (i : ℕ) : UInt64 := UInt64.ofNat (ofLittleEndian ((bs.drop (8 * i)).take 8))

theorem toNat_word (bs : Bytes) (i : ℕ) : (word bs i).toNat = ofLittleEndian ((bs.drop (8 * i)).take 8) := by
  refine UInt64.toNat_ofNat_of_lt' ((ofLittleEndian_lt _).trans_le ?_)
  exact Nat.pow_le_pow_right (by decide) (List.length_take_le _ _)

theorem ofLittleEndian_word {bs : Bytes} {i : ℕ} (h : 8 * i + 8 ≤ bs.length) :
    ofLittleEndian (bs.drop (8 * i)) = (word bs i).toNat + 2 ^ 64 * ofLittleEndian (bs.drop (8 * (i + 1))) := by
  have hlength : ((bs.drop (8 * i)).take 8).length = 8 := by
    rw [List.length_take, List.length_drop]
    omega
  conv_lhs => rw [← List.take_append_drop 8 (bs.drop (8 * i)), ofLittleEndian_append, hlength, List.drop_drop]
  rw [toNat_word, Nat.mul_succ]
  norm_num

theorem ofLittleEndian_words (x : Blob 32) : ofLittleEndian x.bytes = (word x.bytes 0).toNat +
    2 ^ 64 * ((word x.bytes 1).toNat + 2 ^ 64 * ((word x.bytes 2).toNat + 2 ^ 64 * (word x.bytes 3).toNat)) := by
  have hlength := x.length_eq
  have hall : ofLittleEndian x.bytes = ofLittleEndian (x.bytes.drop (8 * 0)) := rfl
  have hnone : x.bytes.drop (8 * (3 + 1)) = [] := List.drop_eq_nil_of_le (by omega)
  rw [hall, ofLittleEndian_word (by omega), ofLittleEndian_word (by omega), ofLittleEndian_word (by omega),
    ofLittleEndian_word (by omega), hnone, ofLittleEndian, Nat.mul_zero]
  rfl

end ByteCodec
