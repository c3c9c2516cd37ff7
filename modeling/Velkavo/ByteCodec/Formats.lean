import Velkavo.ByteCodec.Varint

namespace ByteCodec

@[ext]
structure Blob (n : ℕ) where
  bytes : Bytes
  length_eq : bytes.length = n
  deriving DecidableEq, Repr

namespace Blob

def fill (n : ℕ) (b : UInt8) : Blob n := ⟨List.replicate n b, List.length_replicate⟩

def zero (n : ℕ) : Blob n := fill n 0

instance (n : ℕ) : Inhabited (Blob n) := ⟨zero n⟩

end Blob

def littleEndian : ℕ → ℕ → Bytes
  | 0, _ => []
  | k + 1, n => UInt8.ofNat (n &&& 0xff) :: littleEndian k (n >>> 8)

def ofLittleEndian : Bytes → ℕ
  | [] => 0
  | b :: bs => b.toNat + 256 * ofLittleEndian bs

theorem littleEndian_length (k n : ℕ) : (littleEndian k n).length = k := by
  induction k generalizing n with
  | zero => rfl
  | succ k ih => simp [littleEndian, ih]

theorem ofLittleEndian_littleEndian (k n : ℕ) (h : n < 256 ^ k) :
    ofLittleEndian (littleEndian k n) = n := by
  induction k generalizing n with
  | zero => simp only [pow_zero, Nat.lt_one_iff] at h; simp [littleEndian, ofLittleEndian, h]
  | succ k ih =>
    have hand : n &&& 0xff = n % 256 := Nat.and_two_pow_sub_one_eq_mod n 8
    have hdiv : n >>> 8 = n / 256 := Nat.shiftRight_eq_div_pow n 8
    have hlt : n / 256 < 256 ^ k := Nat.div_lt_of_lt_mul (by rw [pow_succ] at h; omega)
    rw [littleEndian, ofLittleEndian, hand, hdiv, ih _ hlt, toNat_ofNat (Nat.mod_lt _ (by decide))]
    exact Nat.mod_add_div n 256

theorem ofLittleEndian_lt (bs : Bytes) : ofLittleEndian bs < 256 ^ bs.length := by
  induction bs with
  | nil => simp [ofLittleEndian]
  | cons b bs ih =>
    have hb := b.toNat_lt
    rw [ofLittleEndian, List.length_cons, pow_succ]
    omega

theorem littleEndian_ofLittleEndian (bs : Bytes) : littleEndian bs.length (ofLittleEndian bs) = bs := by
  induction bs with
  | nil => rfl
  | cons b bs ih =>
    have hb := b.toNat_lt
    have hand : ofLittleEndian (b :: bs) &&& 0xff = b.toNat := by
      rw [show (0xff : ℕ) = 2 ^ 8 - 1 from rfl, Nat.and_two_pow_sub_one_eq_mod, ofLittleEndian]
      omega
    have hdiv : ofLittleEndian (b :: bs) >>> 8 = ofLittleEndian bs := by
      rw [Nat.shiftRight_eq_div_pow, ofLittleEndian]
      omega
    rw [List.length_cons, littleEndian, hand, hdiv, ih, UInt8.ofNat_toNat]

theorem testBit_ofLittleEndian (bs : Bytes) (i : ℕ) :
    (ofLittleEndian bs).testBit i = (bs.getD (i / 8) 0).toNat.testBit (i % 8) := by
  induction bs generalizing i with
  | nil => simp [ofLittleEndian]
  | cons b bs ih =>
    have hb := b.toNat_lt
    have he : ofLittleEndian (b :: bs) = 2 ^ 8 * ofLittleEndian bs + b.toNat := by
      rw [ofLittleEndian]; omega
    rw [he, Nat.testBit_two_pow_mul_add _ hb]
    split
    · rename_i hi
      rw [Nat.div_eq_of_lt hi, Nat.mod_eq_of_lt hi, List.getD_cons_zero]
    · rename_i hi
      have hd : i / 8 = (i - 8) / 8 + 1 := by omega
      have hm : i % 8 = (i - 8) % 8 := by omega
      rw [ih, hd, hm, List.getD_cons_succ]

namespace Codec

variable {α β γ : Type}

instance (c : Codec α) (d : Codec β) [Exact c] [Exact d] : Exact (seq c d) :=
  ⟨fun x => by simp [seq, dep, Exact.kept_eq]⟩

theorem exact_view {c : Codec β} [Exact c] {get : α → β} {put : β → α}
    {h : ∀ b, c.valid b = true → get (put b) = b} (hp : ∀ a, put (get a) = a) :
    Exact (view c get put h) :=
  ⟨fun a => by simp [view, Exact.kept_eq, hp]⟩

theorem exact_filter {c : Codec α} [Exact c] {ok : α → Bool}
    {h : ∀ a, c.valid a = true → ok a = true → ok (c.kept a) = true} : Exact (filter c ok h) :=
  ⟨fun a => by simp [filter, Exact.kept_eq]⟩

def checked (c : Codec α) [Exact c] (ok : α → Bool) : Codec α :=
  filter c ok fun a _ h => by rwa [Exact.kept_eq]

instance (c : Codec α) [Exact c] (ok : α → Bool) : Exact (checked c ok) := exact_filter

def andThen (c : Codec α) [Exact c] (d : α → Codec β) : Codec (α × β) :=
  dep c d fun a => by rw [Exact.kept_eq]

theorem read_andThen_eq_some {c : Codec α} [Exact c] {d : α → Codec β} {p : AtEnd} {bs rest : Bytes} {a : α}
    {b : β} :
    (andThen c d).read p bs = some ((a, b), rest) ↔
      ∃ mid, c.read p bs = some (a, mid) ∧ (d a).read p mid = some (b, rest) :=
  read_dep_eq_some

instance (c : Codec α) [Exact c] (d : α → Codec β) [∀ a, Exact (d a)] : Exact (andThen c d) :=
  ⟨fun x => by simp [andThen, dep, Exact.kept_eq]⟩

def byte : Codec UInt8 where
  valid _ := true
  kept b := b
  write b := [b]
  read
    | _, [] => none
    | _, b :: bs => some (b, bs)
  read_write _ _ _ _ := rfl
  valid_of_read _ := rfl
  write_of_read {bs} _ _ h := by
    cases bs with
    | nil => simp at h
    | cons b bs =>
      obtain ⟨rfl, rfl⟩ := Prod.mk.inj (Option.some.inj h)
      rfl

instance : Exact byte := ⟨fun _ => rfl⟩

def blob (n : ℕ) : Codec (Blob n) where
  valid _ := true
  kept x := x
  write x := x.bytes
  read _ bs :=
    if h : n ≤ bs.length then some (⟨bs.take n, List.length_take_of_le h⟩, bs.drop n) else none
  read_write _ x rest _ := by
    have hle : n ≤ (x.bytes ++ rest).length := by rw [List.length_append, x.length_eq]; omega
    have ht : (x.bytes ++ rest).take n = x.bytes := List.take_left' x.length_eq
    have hd : (x.bytes ++ rest).drop n = rest := List.drop_left' x.length_eq
    simp only [dif_pos hle, ht, hd]
  valid_of_read _ := rfl
  write_of_read {bs} _ _ h := by
    split at h
    · obtain ⟨rfl, rfl⟩ := Prod.mk.inj (Option.some.inj h)
      exact (List.take_append_drop n bs).symm
    · simp at h

instance (n : ℕ) : Exact (blob n) := ⟨fun _ => rfl⟩

def uint32 : Codec UInt32 :=
  view (blob 4) (fun n => ⟨littleEndian 4 n.toNat, littleEndian_length 4 _⟩)
    (fun x => UInt32.ofNat (ofLittleEndian x.bytes)) fun x _ => by
      have hlt := ofLittleEndian_lt x.bytes
      rw [x.length_eq] at hlt
      have he := littleEndian_ofLittleEndian x.bytes
      rw [x.length_eq] at he
      ext1
      simpa only [UInt32.toNat_ofNat_of_lt' hlt] using he

instance : Exact uint32 := exact_view fun n => by
  have h : n.toNat < 256 ^ 4 := n.toNat_lt
  simp only [ofLittleEndian_littleEndian 4 n.toNat h, UInt32.ofNat_toNat]

def uint64 : Codec UInt64 :=
  view (blob 8) (fun n => ⟨littleEndian 8 n.toNat, littleEndian_length 8 _⟩)
    (fun x => UInt64.ofNat (ofLittleEndian x.bytes)) fun x _ => by
      have hlt := ofLittleEndian_lt x.bytes
      rw [x.length_eq] at hlt
      have he := littleEndian_ofLittleEndian x.bytes
      rw [x.length_eq] at he
      ext1
      simpa only [UInt64.toNat_ofNat_of_lt' hlt] using he

instance : Exact uint64 := exact_view fun n => by
  have h : n.toNat < 256 ^ 8 := n.toNat_lt
  simp only [ofLittleEndian_littleEndian 8 n.toNat h, UInt64.ofNat_toNat]

def varint8 : Codec UInt8 :=
  view (varint 8) UInt8.toNat UInt8.ofNat fun n h => UInt8.toNat_ofNat_of_lt' (by simpa [varint] using h)

instance : Exact varint8 := exact_view fun _ => UInt8.ofNat_toNat

def varint32 : Codec UInt32 :=
  view (varint 32) UInt32.toNat UInt32.ofNat
    fun n h => UInt32.toNat_ofNat_of_lt' (by simpa [varint] using h)

instance : Exact varint32 := exact_view fun _ => UInt32.ofNat_toNat

def varint64 : Codec UInt64 :=
  view (varint 64) UInt64.toNat UInt64.ofNat
    fun n h => UInt64.toNat_ofNat_of_lt' (by simpa [varint] using h)

instance : Exact varint64 := exact_view fun _ => UInt64.ofNat_toNat

@[simp] theorem valid_varint8 (n : UInt8) : varint8.valid n = true := by
  simpa [varint8, view, varint] using n.toNat_lt

@[simp] theorem valid_varint32 (n : UInt32) : varint32.valid n = true := by
  simpa [varint32, view, varint] using n.toNat_lt

@[simp] theorem valid_varint64 (n : UInt64) : varint64.valid n = true := by
  simpa [varint64, view, varint] using n.toNat_lt

end Codec

end ByteCodec
