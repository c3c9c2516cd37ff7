import Velkavo.ByteCodec.Blocks
import Velkavo.ByteCodec.Text

namespace Velkavo.Base58

open ByteCodec

def alphabet : Bytes := ascii "123456789ABCDEFGHJKLMNPQRSTUVWXYZabcdefghijkmnopqrstuvwxyz"

def encodedBlockSizes : List ℕ := [0, 2, 3, 5, 6, 7, 9, 10, 11]

abbrev fullBlockSize : ℕ := 8

abbrev fullEncodedBlockSize : ℕ := 11

abbrev addrChecksumSize : ℕ := 4

def encodedBlockSize (size : ℕ) : ℕ := encodedBlockSizes.getD size 0

def reverseAlphabet (letter : UInt8) : Option ℕ := alphabet.idxOf? letter

def decodedBlockSize (size : ℕ) : Option ℕ := encodedBlockSizes.idxOf? size

def letter (d : ℕ) : UInt8 := alphabet.getD d 0

def encodeBlock (block : Bytes) : Bytes :=
  ((places 58 (encodedBlockSize block.length) (ofLittleEndian block.reverse)).map letter).reverse

def decodeDigits : ℕ → ℕ → Bytes → Option ℕ
  | _, resNum, [] => some resNum
  | order, resNum, c :: rest =>
    match reverseAlphabet c with
    | none => none
    | some digit =>
      if order * digit ≥ 2 ^ 64 ∨ resNum + order * digit ≥ 2 ^ 64 then none
      else decodeDigits (order * 58 % 2 ^ 64) (resNum + order * digit) rest

def decodeBlock (block : Bytes) : Option Bytes :=
  match decodedBlockSize block.length with
  | none => none
  | some 0 => none
  | some resSize =>
    match decodeDigits 1 0 block.reverse with
    | none => none
    | some resNum =>
      if resSize < fullBlockSize ∧ 2 ^ (8 * resSize) ≤ resNum then none
      else some (littleEndian resSize resNum).reverse

def encodeLast (last : Bytes) : Bytes := if 0 < last.length then encodeBlock last else []

def encode (data : Bytes) : Bytes :=
  ((chunks fullBlockSize data).map encodeBlock).flatten ++ encodeLast (lastChunk fullBlockSize data)

def decodeLast (last : Bytes) : Option Bytes := if 0 < last.length then decodeBlock last else some []

def decode (enc : Bytes) : Option Bytes :=
  match decodedBlockSize (enc.length % fullEncodedBlockSize) with
  | none => none
  | some _ => do
    let full ← (chunks fullEncodedBlockSize enc).mapM decodeBlock
    let rest ← decodeLast (lastChunk fullEncodedBlockSize enc)
    pure (full.flatten ++ rest)

def encodeAddr (cnFastHash : Bytes → Blob 32) (tag : ℕ) (data : Bytes) : Bytes :=
  let buf := writeVarint tag ++ data
  encode (buf ++ (cnFastHash buf).bytes.take addrChecksumSize)

def decodeAddr (cnFastHash : Bytes → Blob 32) (addr : Bytes) : Option (ℕ × Bytes) :=
  match decode addr with
  | none => none
  | some addrData =>
    if addrData.length ≤ addrChecksumSize then none
    else
      let checksum := addrData.drop (addrData.length - addrChecksumSize)
      let addrData := addrData.take (addrData.length - addrChecksumSize)
      if (cnFastHash addrData).bytes.take addrChecksumSize ≠ checksum then none
      else readVarint .accept 64 addrData

theorem length_encodeBlock (block : Bytes) : (encodeBlock block).length = encodedBlockSize block.length := by
  rw [encodeBlock, List.length_reverse, List.length_map, length_places]

theorem reverseAlphabet_letter {d : ℕ} (h : d < 58) : reverseAlphabet (letter d) = some d := by
  have hall : ∀ i : Fin 58, reverseAlphabet (letter i) = some i.val := by decide
  exact hall ⟨d, h⟩

theorem decodedBlockSize_encodedBlockSize {n : ℕ} (h : n ≤ 8) :
    decodedBlockSize (encodedBlockSize n) = some n := by
  have hall : ∀ i : Fin 9, decodedBlockSize (encodedBlockSize i) = some i.val := by decide
  exact hall ⟨n, by omega⟩

theorem pow_le_pow_encodedBlockSize {n : ℕ} (h : n ≤ 8) : 256 ^ n ≤ 58 ^ encodedBlockSize n := by
  have hall : ∀ i : Fin 9, 256 ^ i.val ≤ 58 ^ encodedBlockSize i := by decide
  exact hall ⟨n, by omega⟩

theorem encodedBlockSize_le (n : ℕ) : encodedBlockSize n ≤ 11 := by
  by_cases h : n < 9
  · have hall : ∀ i : Fin 9, encodedBlockSize i ≤ 11 := by decide
    exact hall ⟨n, h⟩
  · rw [encodedBlockSize, List.getD_eq_default _ _ (by simpa [encodedBlockSizes] using h)]
    exact Nat.zero_le _

theorem decodeDigits_letters (ds : List ℕ) (hds : ∀ d ∈ ds, d < 58) (i resNum : ℕ) (hi : i + ds.length ≤ 11)
    (hlt : resNum + 58 ^ i * Nat.ofDigits 58 ds < 2 ^ 64) :
    decodeDigits (58 ^ i % 2 ^ 64) resNum (ds.map letter) =
      some (resNum + 58 ^ i * Nat.ofDigits 58 ds) := by
  induction ds generalizing i resNum with
  | nil => simp [decodeDigits]
  | cons d ds ih =>
    have hi10 : i ≤ 10 := by rw [List.length_cons] at hi; omega
    have horder : 58 ^ i % 2 ^ 64 = 58 ^ i :=
      Nat.mod_eq_of_lt ((Nat.pow_le_pow_right (by decide) hi10).trans_lt (by decide))
    have hvalue : 58 ^ i * Nat.ofDigits 58 (d :: ds) =
        58 ^ i * d + 58 ^ (i + 1) * Nat.ofDigits 58 ds := by
      rw [Nat.ofDigits_cons, pow_succ]; ring
    rw [hvalue, ← Nat.add_assoc] at hlt
    rw [List.map_cons, decodeDigits, reverseAlphabet_letter (hds d (by simp)), horder, ← pow_succ, hvalue,
      ← Nat.add_assoc]
    dsimp only
    rw [if_neg (by omega)]
    exact ih (fun e he => hds e (by simp [he])) (i + 1) _ (by rw [List.length_cons] at hi; omega) hlt

theorem decodeBlock_encodeBlock {block : Bytes} (hpos : 0 < block.length) (hle : block.length ≤ 8) :
    decodeBlock (encodeBlock block) = some block := by
  obtain ⟨k, hk⟩ : ∃ k, block.length = k + 1 := ⟨block.length - 1, by omega⟩
  have hrev : block.reverse.length = block.length := List.length_reverse
  have hnum : ofLittleEndian block.reverse < 256 ^ block.length := by
    have h := ofLittleEndian_lt block.reverse
    rwa [hrev] at h
  have hbytes : (256 : ℕ) ^ block.length = 2 ^ (8 * block.length) := by rw [pow_mul]; rfl
  have hsmall : ofLittleEndian block.reverse < 2 ^ 64 :=
    (hbytes ▸ hnum).trans_le (Nat.pow_le_pow_right (by decide) (by omega))
  have hvalue : Nat.ofDigits 58 (places 58 (encodedBlockSize block.length) (ofLittleEndian block.reverse)) =
      ofLittleEndian block.reverse :=
    ofDigits_places (hnum.trans_le (pow_le_pow_encodedBlockSize hle))
  have hdigits := decodeDigits_letters
    (places 58 (encodedBlockSize block.length) (ofLittleEndian block.reverse))
    (fun d hd => lt_of_mem_places (by decide) hd) 0 0
    (by rw [length_places]; simpa using encodedBlockSize_le block.length) (by simpa [hvalue] using hsmall)
  rw [hvalue, pow_zero, Nat.zero_add, Nat.one_mul, Nat.one_mod_eq_one.mpr (by decide)] at hdigits
  rw [decodeBlock, length_encodeBlock, decodedBlockSize_encodedBlockSize hle, encodeBlock,
    List.reverse_reverse, hdigits, hk]
  change (if k + 1 < fullBlockSize ∧ 2 ^ (8 * (k + 1)) ≤ ofLittleEndian block.reverse then none
    else some (littleEndian (k + 1) (ofLittleEndian block.reverse)).reverse) = some block
  rw [if_neg (by rw [← hk, ← hbytes]; omega), ← hk]
  nth_rewrite 1 [← hrev]
  rw [littleEndian_ofLittleEndian, List.reverse_reverse]

theorem encode_append {c : Bytes} (hc : c.length = 8) (data : Bytes) :
    encode (c ++ data) = encodeBlock c ++ encode data := by
  rw [encode, encode, chunks_append (by decide) hc, lastChunk_append (by decide) hc, List.map_cons, List.flatten_cons,
    List.append_assoc]

theorem encode_of_lt {data : Bytes} (h : data.length < 8) :
    encode data = if 0 < data.length then encodeBlock data else [] := by
  rw [encode, chunks_of_lt h, lastChunk_of_lt h, List.map_nil, List.flatten_nil, List.nil_append, encodeLast]

theorem length_encode (data : Bytes) :
    (encode data).length = data.length / 8 * 11 + encodedBlockSize (data.length % 8) := by
  induction data using chunk_induction (n := 8) (by decide) with
  | short data h =>
    rw [encode_of_lt h, Nat.div_eq_of_lt h, Nat.mod_eq_of_lt h]
    split_ifs with hpos
    · rw [length_encodeBlock]; omega
    · rw [Nat.eq_zero_of_not_pos hpos]; rfl
  | block c data hc ih =>
    rw [encode_append hc, List.length_append, length_encodeBlock, ih, hc, List.length_append, hc,
      Nat.add_div_left _ (by decide), Nat.add_mod_left, Nat.succ_mul, show encodedBlockSize 8 = 11 from rfl]
    omega

theorem decode_append {c : Bytes} (hc : c.length = 11) (enc : Bytes) :
    decode (c ++ enc) = (decodeBlock c).bind fun block => (decode enc).map fun data => block ++ data := by
  rw [decode, decode, chunks_append (by decide) hc, lastChunk_append (by decide) hc, List.length_append, hc,
    Nat.add_mod_left]
  cases decodedBlockSize (enc.length % 11) with
  | none => cases decodeBlock c <;> rfl
  | some n =>
    simp only [List.mapM_cons, Option.bind_eq_bind, Option.pure_def, Option.bind_assoc, Option.bind_some,
      Option.map_bind, Option.map_some, List.flatten_cons, List.append_assoc, Function.comp_def]

theorem decode_encode (data : Bytes) : decode (encode data) = some data := by
  induction data using chunk_induction (n := 8) (by decide) with
  | short data h =>
    rw [encode_of_lt h]
    split_ifs with hpos
    · have hlt : (encodeBlock data).length < 11 := by
        rw [length_encodeBlock]
        have hall : ∀ i : Fin 8, encodedBlockSize i < 11 := by decide
        exact hall ⟨_, h⟩
      have hsize : 0 < (encodeBlock data).length := by
        by_contra hzero
        have hdec := decodeBlock_encodeBlock hpos h.le
        rw [List.length_eq_zero_iff.mp (Nat.eq_zero_of_not_pos hzero)] at hdec
        exact absurd hdec (by simp [decodeBlock, show decodedBlockSize 0 = some 0 from rfl])
      rw [decode, chunks_of_lt hlt, lastChunk_of_lt hlt, Nat.mod_eq_of_lt hlt, length_encodeBlock,
        decodedBlockSize_encodedBlockSize h.le, decodeLast,
        if_pos hsize, decodeBlock_encodeBlock hpos h.le]
      rfl
    · rw [List.length_eq_zero_iff.mp (Nat.eq_zero_of_not_pos hpos)]
      rfl
  | block c data hc ih =>
    have hlen : (encodeBlock c).length = 11 := by rw [length_encodeBlock, hc]; rfl
    rw [encode_append hc, decode_append hlen, decodeBlock_encodeBlock (by omega) hc.le, ih]
    rfl

theorem letter_of_reverseAlphabet {c : UInt8} {d : ℕ} (h : reverseAlphabet c = some d) : d < 58 ∧ letter d = c := by
  rw [reverseAlphabet, List.idxOf?_eq_some_iff] at h
  obtain ⟨hd, hc, -⟩ := h
  have hlen : alphabet.length = 58 := rfl
  refine ⟨hlen ▸ hd, ?_⟩
  rw [letter, List.getD_eq_getElem _ _ hd]
  exact hc

theorem digits_of_decodeDigits {cs : Bytes} {i resNum n : ℕ} (hi : i + cs.length ≤ 11) (hres : resNum < 2 ^ 64)
    (h : decodeDigits (58 ^ i % 2 ^ 64) resNum cs = some n) :
    ∃ ds : List ℕ, cs = ds.map letter ∧ (∀ d ∈ ds, d < 58) ∧ n = resNum + 58 ^ i * Nat.ofDigits 58 ds ∧ n < 2 ^ 64 := by
  induction cs generalizing i resNum with
  | nil =>
    cases h
    exact ⟨[], rfl, by simp, by simp, hres⟩
  | cons c cs ih =>
    rw [List.length_cons] at hi
    have horder : 58 ^ i % 2 ^ 64 = 58 ^ i :=
      Nat.mod_eq_of_lt ((Nat.pow_le_pow_right (by decide) (by omega : i ≤ 10)).trans_lt (by decide))
    rw [decodeDigits, horder] at h
    cases hc : reverseAlphabet c with
    | none => rw [hc] at h; cases h
    | some d =>
      rw [hc] at h
      dsimp only at h
      split_ifs at h with hover
      rw [← pow_succ] at h
      obtain ⟨ds, hcs, hds, hn, hlt⟩ := ih (by omega) (by omega) h
      obtain ⟨hd, hletter⟩ := letter_of_reverseAlphabet hc
      refine ⟨d :: ds, by rw [List.map_cons, hletter, hcs], List.forall_mem_cons.mpr ⟨hd, hds⟩, ?_, hlt⟩
      rw [hn, Nat.ofDigits_cons, pow_succ]
      ring

theorem encodedBlockSize_of_decodedBlockSize {size n : ℕ} (h : decodedBlockSize size = some n) :
    encodedBlockSize n = size ∧ n ≤ 8 := by
  rw [decodedBlockSize, List.idxOf?_eq_some_iff] at h
  obtain ⟨hn, hsize, -⟩ := h
  have hlen : encodedBlockSizes.length = 9 := rfl
  refine ⟨?_, by omega⟩
  rw [encodedBlockSize, List.getD_eq_getElem _ _ hn]
  exact hsize

theorem encodeBlock_of_decodeBlock {block data : Bytes} (h : decodeBlock block = some data) :
    encodeBlock data = block ∧ 0 < data.length ∧ decodedBlockSize block.length = some data.length := by
  rw [decodeBlock] at h
  cases hsize : decodedBlockSize block.length with
  | none => rw [hsize] at h; cases h
  | some resSize =>
    obtain ⟨henc, hle⟩ := encodedBlockSize_of_decodedBlockSize hsize
    rw [hsize] at h
    cases resSize with
    | zero => cases h
    | succ k =>
      cases hdigits : decodeDigits 1 0 block.reverse with
      | none => rw [hdigits] at h; cases h
      | some n =>
        rw [hdigits] at h
        change (if k + 1 < fullBlockSize ∧ 2 ^ (8 * (k + 1)) ≤ n then none
          else some (littleEndian (k + 1) n).reverse) = some data at h
        split_ifs at h with hover
        cases h
        have hmax := encodedBlockSize_le (k + 1)
        obtain ⟨ds, hds, hlt, hn, hfits⟩ := digits_of_decodeDigits (i := 0)
          (by rw [List.length_reverse, Nat.zero_add, ← henc]; exact hmax) (by decide) hdigits
        rw [pow_zero, Nat.one_mul, Nat.zero_add] at hn
        have hpow : (256 : ℕ) ^ (k + 1) = 2 ^ (8 * (k + 1)) := by rw [pow_mul]; rfl
        have hsmall : n < 256 ^ (k + 1) := by
          rw [hpow]
          rcases Nat.lt_or_ge (k + 1) fullBlockSize with hlt | hge
          · omega
          · have hfull : k + 1 = 8 := le_antisymm hle hge
            rw [hfull]
            exact hfits
        have hlen : ds.length = encodedBlockSize (k + 1) := by
          have hlength := congrArg List.length hds
          rw [List.length_reverse, List.length_map] at hlength
          rw [henc, hlength]
        refine ⟨?_, by simp [littleEndian_length], by rw [List.length_reverse, littleEndian_length]⟩
        rw [encodeBlock, List.reverse_reverse, List.length_reverse, littleEndian_length, ofLittleEndian_littleEndian _ _ hsmall,
          hn, ← hlen, places_ofDigits ds hlt, ← hds, List.reverse_reverse]

theorem encode_of_decode {enc data : Bytes} (h : decode enc = some data) : encode data = enc := by
  induction enc using chunk_induction (n := 11) (by decide) generalizing data with
  | short enc hlt =>
    rw [decode, chunks_of_lt hlt, lastChunk_of_lt hlt] at h
    cases hsize : decodedBlockSize (enc.length % fullEncodedBlockSize) with
    | none => rw [hsize] at h; cases h
    | some n =>
      rw [hsize] at h
      have hlast : decodeLast enc = some data := by
        obtain ⟨full, hfull, h⟩ := Option.bind_eq_some_iff.mp h
        obtain ⟨rest, hrest, heq⟩ := Option.bind_eq_some_iff.mp h
        cases hfull
        rw [hrest]
        exact heq
      rw [decodeLast] at hlast
      split_ifs at hlast with hpos
      · obtain ⟨hblock, hdata, hdecoded⟩ := encodeBlock_of_decodeBlock hlast
        have hshort : data.length < 8 := by
          obtain ⟨henc, hle⟩ := encodedBlockSize_of_decodedBlockSize hdecoded
          refine lt_of_le_of_ne hle fun hfull => ?_
          rw [hfull, show encodedBlockSize 8 = 11 from rfl] at henc
          omega
        rw [encode_of_lt hshort, if_pos hdata, hblock]
      · cases hlast
        rw [List.length_eq_zero_iff.mp (Nat.eq_zero_of_not_pos hpos)]
        rfl
  | block c enc hc ih =>
    rw [decode_append hc] at h
    obtain ⟨block, hblock, hmap⟩ := Option.bind_eq_some_iff.mp h
    obtain ⟨rest, hrest, rfl⟩ := Option.map_eq_some_iff.mp hmap
    obtain ⟨henc, -, hsize⟩ := encodeBlock_of_decodeBlock hblock
    have hlen : block.length = 8 := by
      rw [hc, show decodedBlockSize 11 = some 8 from rfl] at hsize
      exact (Option.some.inj hsize).symm
    rw [encode_append hlen, henc, ih hrest]

theorem decode_eq_some_iff (enc data : Bytes) : decode enc = some data ↔ encode data = enc := by
  refine ⟨encode_of_decode, ?_⟩
  rintro rfl
  exact decode_encode data

theorem letter_mem {d : ℕ} (h : d < 58) : letter d ∈ alphabet := by
  have hall : ∀ i : Fin 58, letter i ∈ alphabet := by decide
  exact hall ⟨d, h⟩

theorem mem_alphabet_of_mem_encodeBlock {block : Bytes} {c : UInt8} (h : c ∈ encodeBlock block) :
    c ∈ alphabet := by
  rw [encodeBlock, List.mem_reverse] at h
  obtain ⟨d, hd, rfl⟩ := List.mem_map.mp h
  exact letter_mem (lt_of_mem_places (by decide) hd)

theorem mem_alphabet_of_mem_encode {data : Bytes} {c : UInt8} (h : c ∈ encode data) : c ∈ alphabet := by
  rw [encode, List.mem_append] at h
  rcases h with h | h
  · obtain ⟨e, he, hc⟩ := List.mem_flatten.mp h
    obtain ⟨block, -, rfl⟩ := List.mem_map.mp he
    exact mem_alphabet_of_mem_encodeBlock hc
  · rw [encodeLast] at h
    split_ifs at h
    · exact mem_alphabet_of_mem_encodeBlock h
    · cases h

variable (cnFastHash : Bytes → Blob 32)

theorem length_checksum (buf : Bytes) : ((cnFastHash buf).bytes.take addrChecksumSize).length = 4 := by
  rw [List.length_take, (cnFastHash buf).length_eq]
  rfl

theorem length_encodeAddr (tag : ℕ) (data : Bytes) :
    (encodeAddr cnFastHash tag data).length =
      ((writeVarint tag).length + data.length + 4) / 8 * 11 +
        encodedBlockSize (((writeVarint tag).length + data.length + 4) % 8) := by
  rw [encodeAddr, length_encode, List.length_append, List.length_append, length_checksum]

theorem decodeAddr_encodeAddr {tag : ℕ} (htag : tag < 2 ^ 64) (data : Bytes) :
    decodeAddr cnFastHash (encodeAddr cnFastHash tag data) = some (tag, data) := by
  rw [encodeAddr, decodeAddr]
  set buf := writeVarint tag ++ data with hbuf
  have hpos : 0 < buf.length := by
    rw [hbuf, List.length_append]
    exact Nat.add_pos_left (List.length_pos_iff.mpr (writeVarint_ne_nil tag)) _
  have htotal : (buf ++ (cnFastHash buf).bytes.take addrChecksumSize).length = buf.length + 4 := by
    rw [List.length_append, length_checksum]
  have hlen : (buf ++ (cnFastHash buf).bytes.take addrChecksumSize).length - addrChecksumSize = buf.length := by
    rw [htotal]
    rfl
  dsimp only
  rw [decode_encode]
  dsimp only
  rw [hlen, List.take_left, List.drop_left, if_neg (by rw [htotal]; exact Nat.not_le.mpr (by omega)),
    if_neg (fun h => h rfl)]
  exact (Codec.varint 64).read_write .accept tag data (decide_eq_true htag)

theorem encodeAddr_of_decodeAddr {addr data : Bytes} {tag : ℕ} (h : decodeAddr cnFastHash addr = some (tag, data))
    (hdata : data ≠ []) : encodeAddr cnFastHash tag data = addr := by
  rw [decodeAddr] at h
  cases hdecode : decode addr with
  | none => rw [hdecode] at h; cases h
  | some addrData =>
    rw [hdecode] at h
    dsimp only at h
    split_ifs at h with hshort hsum
    have hbuf := (Codec.varint 64).write_of_read (readVarint_reject_of_accept h hdata)
    have hbuf : addrData.take (addrData.length - addrChecksumSize) = writeVarint tag ++ data := hbuf
    rw [encodeAddr, ← hbuf, not_not.mp hsum, List.take_append_drop, encode_of_decode hdecode]

end Velkavo.Base58
