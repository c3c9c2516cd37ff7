import Velkavo.ByteCodec.Words
import Velkavo.BlockchainDb.Tables

namespace Velkavo.BlockchainDb

open Cryptonote ByteCodec

def word32 (bs : Bytes) (i : ℕ) : UInt32 := UInt32.ofNat (ofLittleEndian ((bs.drop (4 * i)).take 4))

def compareWords32 (a b : Hash) : ℕ → Ordering
  | 0 => .eq
  | n + 1 =>
    if word32 a.bytes n = word32 b.bytes n then compareWords32 a b n
    else if word32 a.bytes n < word32 b.bytes n then .lt else .gt

def compareHash32 (a b : Hash) : Ordering := compareWords32 a b 8

def compareReversed (ha hb : Hash) : ℕ → ℕ → Ordering
  | 0, _ => .eq
  | n + 1, nbits =>
    if nbits = 0 then .eq
    else
      let msbNbits := min 64 nbits
      let van := word ha.bytes n >>> UInt64.ofNat (64 - msbNbits)
      let vbn := word hb.bytes n >>> UInt64.ofNat (64 - msbNbits)
      if van < vbn then .lt else if van > vbn then .gt else compareReversed ha hb n (nbits - msbNbits)

def compareHash32ReversedNbits (ha hb : Hash) (nbits : ℕ) : Ordering := compareReversed ha hb 4 nbits

structure TxidTables (ν : Type) where
  txIndices : ByHash TxData
  txpoolMeta : ByHash ν

def rowsFrom {ν : Type} (m : ByHash ν) (template : Hash) : List Hash :=
  m.keys.dropWhile fun h => compareHash32 h template == .lt

def takeMatching (template : Hash) (bits maxNumTxs : ℕ) : List Hash → List Hash → Option (List Hash)
  | matching, [] => some matching
  | matching, h :: rows =>
    if compareHash32ReversedNbits template h bits ≠ .eq then some matching
    else if matching.length ≥ maxNumTxs ∧ maxNumTxs ≠ 0 then none
    else takeMatching template bits maxNumTxs (matching ++ [h]) rows

def TxidTables.getTxidsLoose {ν : Type} (db : TxidTables ν) (template : Hash) (bits maxNumTxs : ℕ) :
    Option (List Hash) := do
  let matching ← takeMatching template bits maxNumTxs [] (rowsFrom db.txIndices template)
  takeMatching template bits maxNumTxs matching (rowsFrom db.txpoolMeta template)

section

theorem ofLittleEndian_take (bs : Bytes) (k n : ℕ) (h : k * n ≤ bs.length) :
    ofLittleEndian (bs.take (k * (n + 1))) =
      ofLittleEndian (bs.take (k * n)) + 256 ^ (k * n) * ofLittleEndian ((bs.drop (k * n)).take k) := by
  rw [Nat.mul_succ, List.take_add, ofLittleEndian_append, List.length_take, Nat.min_eq_left h]

theorem ofLittleEndian_take_lt {bs : Bytes} {m : ℕ} (h : m ≤ bs.length) : ofLittleEndian (bs.take m) < 256 ^ m := by
  have hlt := ofLittleEndian_lt (bs.take m)
  rwa [List.length_take, Nat.min_eq_left h] at hlt

theorem compare_digits {p x y u v : ℕ} (hx : x < p) (hy : y < p) :
    compare (x + p * u) (y + p * v) = if u < v then .lt else if u > v then .gt else compare x y := by
  split_ifs with hlt hgt
  · rw [Nat.compare_eq_lt]
    nlinarith
  · rw [Nat.compare_eq_gt]
    nlinarith
  · obtain rfl : u = v := by omega
    rcases Nat.lt_trichotomy x y with h | h | h
    · rw [Nat.compare_eq_lt.mpr h, Nat.compare_eq_lt]
      omega
    · rw [h]
      simp
    · rw [Nat.compare_eq_gt.mpr h, Nat.compare_eq_gt]
      omega

theorem toNat_word32 (bs : Bytes) (i : ℕ) : (word32 bs i).toNat = ofLittleEndian ((bs.drop (4 * i)).take 4) := by
  refine UInt32.toNat_ofNat_of_lt' ((ofLittleEndian_lt _).trans_le ?_)
  exact Nat.pow_le_pow_right (by decide) (List.length_take_le _ _)

theorem compareWords32_eq (a b : Hash) {n : ℕ} (hn : n ≤ 8) :
    compareWords32 a b n = compare (ofLittleEndian (a.bytes.take (4 * n))) (ofLittleEndian (b.bytes.take (4 * n))) := by
  have ha := a.length_eq
  have hb := b.length_eq
  induction n with
  | zero => rfl
  | succ n ih =>
    rw [ofLittleEndian_take _ _ _ (by omega), ofLittleEndian_take _ _ _ (by omega),
      compare_digits (ofLittleEndian_take_lt (by omega)) (ofLittleEndian_take_lt (by omega)), ← toNat_word32,
      ← toNat_word32, compareWords32, ih (by omega)]
    simp only [UInt32.lt_iff_toNat_lt, ← UInt32.toNat_inj]
    split_ifs <;> first | rfl | omega

theorem compareHash32_eq (a b : Hash) : compareHash32 a b = compare (hashKey a) (hashKey b) := by
  rw [compareHash32, compareWords32_eq a b (Nat.le_refl 8), List.take_of_length_le (by rw [a.length_eq]),
    List.take_of_length_le (by rw [b.length_eq]), hashKey, hashKey]

def firstBits (nbits : ℕ) (h : Hash) : ℕ := hashKey h / 2 ^ (256 - min 256 nbits)

theorem topBits_eq {n nbits x w : ℕ} (hx : x < 2 ^ (64 * n)) :
    (x + 2 ^ (64 * n) * w) / 2 ^ (64 * (n + 1) - min (64 * (n + 1)) nbits) =
      x / 2 ^ (64 * n - min (64 * n) (nbits - min 64 nbits)) +
        2 ^ min (64 * n) (nbits - min 64 nbits) * (w / 2 ^ (64 - min 64 nbits)) := by
  rcases Nat.lt_or_ge nbits 64 with hfew | hmany
  · have hsplit : 64 * (n + 1) - min (64 * (n + 1)) nbits = 64 * n + (64 - nbits) := by omega
    rw [hsplit, Nat.min_eq_right hfew.le, Nat.sub_self, Nat.min_zero, Nat.sub_zero, Nat.div_eq_of_lt hx, pow_add,
      ← Nat.div_div_eq_div_mul, Nat.add_mul_div_left _ _ (by positivity), Nat.div_eq_of_lt hx]
    simp
  · have hexp : 64 * (n + 1) - min (64 * (n + 1)) nbits = 64 * n - min (64 * n) (nbits - 64) := by omega
    rw [hexp, Nat.min_eq_left hmany, Nat.sub_self, pow_zero, Nat.div_one]
    generalize hk : min (64 * n) (nbits - 64) = k
    have hpow : 2 ^ (64 * n) = 2 ^ (64 * n - k) * 2 ^ k := by
      rw [← pow_add]
      congr 1
      omega
    rw [hpow, Nat.mul_assoc, Nat.add_mul_div_left _ _ (by positivity)]

theorem toNat_shifted {w : UInt64} {nbits : ℕ} (h : nbits ≠ 0) :
    (w >>> UInt64.ofNat (64 - min 64 nbits)).toNat = w.toNat / 2 ^ (64 - min 64 nbits) := by
  have hsmall : (UInt64.ofNat (64 - min 64 nbits)).toNat % 64 = 64 - min 64 nbits := by
    rw [UInt64.toNat_ofNat_of_lt' (lt_of_le_of_lt (Nat.sub_le _ _) (by decide))]
    omega
  rw [UInt64.toNat_shiftRight, hsmall, Nat.shiftRight_eq_div_pow]

theorem pow_words (n : ℕ) : 256 ^ (8 * n) = 2 ^ (64 * n) := by
  rw [show (256 : ℕ) = 2 ^ 8 from rfl, ← pow_mul]
  congr 1
  omega

theorem lowWords_lt (h : Hash) {n : ℕ} (hn : n ≤ 4) : ofLittleEndian (h.bytes.take (8 * n)) < 2 ^ (64 * n) := by
  have hlen := h.length_eq
  rw [← pow_words]
  exact ofLittleEndian_take_lt (by omega)

theorem lowWords_succ (h : Hash) {n : ℕ} (hn : n ≤ 4) :
    ofLittleEndian (h.bytes.take (8 * (n + 1))) =
      ofLittleEndian (h.bytes.take (8 * n)) + 2 ^ (64 * n) * (word h.bytes n).toNat := by
  have hlen := h.length_eq
  rw [ofLittleEndian_take _ _ _ (by omega), pow_words, toNat_word]

theorem compareReversed_eq (a b : Hash) {n : ℕ} (hn : n ≤ 4) (nbits : ℕ) :
    compareReversed a b n nbits =
      compare (ofLittleEndian (a.bytes.take (8 * n)) / 2 ^ (64 * n - min (64 * n) nbits))
        (ofLittleEndian (b.bytes.take (8 * n)) / 2 ^ (64 * n - min (64 * n) nbits)) := by
  induction n generalizing nbits with
  | zero => simp [compareReversed]
  | succ n ih =>
    have hn' : n ≤ 4 := by omega
    by_cases hzero : nbits = 0
    · rw [compareReversed, if_pos hzero, hzero, Nat.min_zero, Nat.sub_zero, Nat.div_eq_of_lt (lowWords_lt a hn),
        Nat.div_eq_of_lt (lowWords_lt b hn)]
      rfl
    · have hrest : ∀ h : Hash, ofLittleEndian (h.bytes.take (8 * n)) /
          2 ^ (64 * n - min (64 * n) (nbits - min 64 nbits)) < 2 ^ min (64 * n) (nbits - min 64 nbits) := by
        intro h
        refine Nat.div_lt_of_lt_mul ((lowWords_lt h hn').trans_le ?_)
        rw [← pow_add]
        exact Nat.pow_le_pow_right (by decide) (by omega)
      rw [lowWords_succ a hn', lowWords_succ b hn', topBits_eq (lowWords_lt a hn'), topBits_eq (lowWords_lt b hn'),
        compare_digits (hrest a) (hrest b), ← ih hn', compareReversed, if_neg hzero]
      simp only [UInt64.lt_iff_toNat_lt, gt_iff_lt, toNat_shifted hzero]

theorem compareHash32ReversedNbits_eq (a b : Hash) (nbits : ℕ) :
    compareHash32ReversedNbits a b nbits = compare (firstBits nbits a) (firstBits nbits b) := by
  rw [compareHash32ReversedNbits, compareReversed_eq a b (Nat.le_refl 4), List.take_of_length_le (by rw [a.length_eq]),
    List.take_of_length_le (by rw [b.length_eq])]
  rfl

theorem firstBits_mono (nbits : ℕ) {a b : Hash} (h : hashKey a ≤ hashKey b) : firstBits nbits a ≤ firstBits nbits b :=
  Nat.div_le_div_right h

end

section

variable {ν : Type} {template : Hash} {bits : ℕ}

def agrees (template : Hash) (bits : ℕ) (h : Hash) : Bool := firstBits bits template == firstBits bits h

theorem takeMatching_eq {maxNumTxs : ℕ} {matching : List Hash} (hfits : maxNumTxs ≠ 0 → matching.length ≤ maxNumTxs)
    (rows : List Hash) :
    takeMatching template bits maxNumTxs matching rows =
      if maxNumTxs ≠ 0 ∧ maxNumTxs < matching.length + (rows.takeWhile (agrees template bits)).length then none
      else some (matching ++ rows.takeWhile (agrees template bits)) := by
  induction rows generalizing matching with
  | nil =>
    rw [takeMatching, List.takeWhile_nil, List.append_nil, if_neg]
    rintro ⟨hmax, hlt⟩
    exact absurd (hfits hmax) (not_le.mpr hlt)
  | cons h rows ih =>
    have hmatch : compareHash32ReversedNbits template h bits ≠ .eq ↔ agrees template bits h = false := by
      rw [compareHash32ReversedNbits_eq, Ne, Nat.compare_eq_eq, agrees, beq_eq_false_iff_ne]
    rw [takeMatching]
    cases hagrees : agrees template bits h with
    | false =>
      rw [if_pos (hmatch.mpr hagrees), List.takeWhile_cons_of_neg (by simp [hagrees]), List.append_nil, if_neg]
      rintro ⟨hmax, hlt⟩
      exact absurd (hfits hmax) (not_le.mpr hlt)
    | true =>
      rw [if_neg (by rw [hmatch, hagrees]; decide), List.takeWhile_cons_of_pos hagrees, List.length_cons]
      by_cases hfull : matching.length ≥ maxNumTxs ∧ maxNumTxs ≠ 0
      · rw [if_pos hfull, if_pos ⟨hfull.2, by omega⟩]
      · have hroom : maxNumTxs ≠ 0 → (matching ++ [h]).length ≤ maxNumTxs := fun hmax => by
          rw [List.length_append, List.length_singleton]
          omega
        rw [if_neg hfull, ih hroom, List.length_append, List.length_singleton, List.append_assoc, List.singleton_append]
        congr 3
        omega

theorem takeWhile_dropWhile_sorted {l : List Hash} (hl : l.Pairwise fun a b => hashKey a < hashKey b) :
    (l.dropWhile fun h => compareHash32 h template == .lt).takeWhile (agrees template bits) =
      l.filter fun h => decide (hashKey template ≤ hashKey h) && agrees template bits h := by
  have hbelow : ∀ h : Hash, (compareHash32 h template == .lt) = decide (hashKey h < hashKey template) := fun h => by
    rw [compareHash32_eq, Bool.eq_iff_iff, beq_iff_eq, Nat.compare_eq_lt, decide_eq_true_eq]
  simp only [hbelow]
  induction l with
  | nil => rfl
  | cons h rest ih =>
    obtain ⟨hrest, hsorted⟩ := List.pairwise_cons.mp hl
    by_cases hlt : hashKey h < hashKey template
    · rw [List.dropWhile_cons_of_pos (by simpa using hlt), ih hsorted, List.filter_cons_of_neg]
      simp [not_le.mpr hlt]
    · have hfirst : hashKey template ≤ hashKey h := not_lt.mp hlt
      rw [List.dropWhile_cons_of_neg (by simpa using hfirst)]
      cases hagrees : agrees template bits h with
      | true =>
        have hnone : rest.dropWhile (fun h => decide (hashKey h < hashKey template)) = rest := by
          cases rest with
          | nil => rfl
          | cons x rest =>
            have hx := hrest x (by simp)
            exact List.dropWhile_cons_of_neg (by simp; omega)
        rw [List.takeWhile_cons_of_pos hagrees, List.filter_cons_of_pos (by simp [hfirst, hagrees]), ← ih hsorted, hnone]
      | false =>
        -- the bits only grow from here on
        rw [List.takeWhile_cons_of_neg (by simp [hagrees]), List.filter_cons_of_neg (by simp [hagrees]), eq_comm,
          List.filter_eq_nil_iff]
        intro x hx hmatch
        have hgrow := firstBits_mono bits (hrest x hx).le
        have hstart := firstBits_mono bits hfirst
        rw [agrees, beq_eq_false_iff_ne] at hagrees
        have hsame : firstBits bits template = firstBits bits x := by
          simpa [agrees] using (Bool.and_eq_true_iff.mp hmatch).2
        omega

def matchingRows (m : ByHash ν) (template : Hash) (bits : ℕ) : List Hash :=
  m.keys.filter fun h => decide (hashKey template ≤ hashKey h) && agrees template bits h

theorem mem_matchingRows {m : ByHash ν} {h : Hash} :
    h ∈ matchingRows m template bits ↔
      h ∈ m.keys ∧ hashKey template ≤ hashKey h ∧ agrees template bits h = true := by
  rw [matchingRows, List.mem_filter, Bool.and_eq_true, decide_eq_true_eq]

theorem takeWhile_rowsFrom (m : ByHash ν) :
    (rowsFrom m template).takeWhile (agrees template bits) = matchingRows m template bits :=
  takeWhile_dropWhile_sorted (List.pairwise_map.mpr m.sorted)

theorem TxidTables.getTxidsLoose_eq (db : TxidTables ν) (maxNumTxs : ℕ) :
    db.getTxidsLoose template bits maxNumTxs =
      if maxNumTxs ≠ 0 ∧ maxNumTxs <
          (matchingRows db.txIndices template bits ++ matchingRows db.txpoolMeta template bits).length then none
      else some (matchingRows db.txIndices template bits ++ matchingRows db.txpoolMeta template bits) := by
  rw [TxidTables.getTxidsLoose, takeMatching_eq fun _ => Nat.zero_le _, takeWhile_rowsFrom, List.nil_append,
    List.length_append, List.length_nil, Nat.zero_add]
  by_cases hchain : maxNumTxs ≠ 0 ∧ maxNumTxs < (matchingRows db.txIndices template bits).length
  · rw [if_pos hchain, if_pos ⟨hchain.1, by omega⟩]
    rfl
  · rw [if_neg hchain, Option.bind_eq_bind, Option.bind_some, takeMatching_eq (fun hmax => by omega),
      takeWhile_rowsFrom]

end

def TxidTables.Exact {ν : Type} (db : TxidTables ν) (template : Hash) (bits : ℕ) : Prop :=
  ∃ txids, txids.Nodup ∧
    (∀ h, h ∈ txids ↔ (h ∈ db.txIndices.keys ∨ h ∈ db.txpoolMeta.keys) ∧ agrees template bits h = true) ∧
    ∀ maxNumTxs, db.getTxidsLoose template bits maxNumTxs =
      if maxNumTxs ≠ 0 ∧ maxNumTxs < txids.length then none else some txids

theorem txids_loose_iff {ν : Type} (db : TxidTables ν) (template : Hash) (bits : ℕ) :
    db.Exact template bits ↔
      (∀ h, h ∈ db.txIndices.keys ∨ h ∈ db.txpoolMeta.keys → agrees template bits h = true →
        hashKey template ≤ hashKey h) ∧
      ∀ h ∈ db.txIndices.keys, h ∈ db.txpoolMeta.keys → agrees template bits h = false := by
  constructor
  · rintro ⟨txids, hnodup, hmem, hget⟩
    have hall := hget 0
    rw [db.getTxidsLoose_eq, if_neg (by simp), if_neg (by simp), Option.some.injEq] at hall
    have habove : ∀ h, h ∈ db.txIndices.keys ∨ h ∈ db.txpoolMeta.keys → agrees template bits h = true →
        hashKey template ≤ hashKey h := by
      intro h hin hagrees
      have hfound := (hmem h).mpr ⟨hin, hagrees⟩
      rw [← hall, List.mem_append, mem_matchingRows, mem_matchingRows] at hfound
      rcases hfound with hfound | hfound
      · exact hfound.2.1
      · exact hfound.2.1
    refine ⟨habove, fun h hchain hpool => ?_⟩
    by_contra hagrees
    have hagrees' : agrees template bits h = true := by simpa using hagrees
    have hle := habove h (.inl hchain) hagrees'
    rw [← hall] at hnodup
    exact (List.nodup_append.mp hnodup).2.2 h (mem_matchingRows.mpr ⟨hchain, hle, hagrees'⟩) h
      (mem_matchingRows.mpr ⟨hpool, hle, hagrees'⟩) rfl
  · rintro ⟨habove, hapart⟩
    refine ⟨_, ?_, fun h => ?_, db.getTxidsLoose_eq⟩
    · refine List.nodup_append.mpr ⟨db.txIndices.nodup_keys.filter _, db.txpoolMeta.nodup_keys.filter _, ?_⟩
      rintro h hchain _ hpool rfl
      obtain ⟨hchain, -, hagrees⟩ := mem_matchingRows.mp hchain
      rw [hapart h hchain (mem_matchingRows.mp hpool).1] at hagrees
      cases hagrees
    · rw [List.mem_append, mem_matchingRows, mem_matchingRows]
      constructor
      · rintro (⟨hin, -, hagrees⟩ | ⟨hin, -, hagrees⟩)
        · exact ⟨.inl hin, hagrees⟩
        · exact ⟨.inr hin, hagrees⟩
      · rintro ⟨hin | hin, hagrees⟩
        · exact .inl ⟨hin, habove h (.inl hin) hagrees, hagrees⟩
        · exact .inr ⟨hin, habove h (.inr hin) hagrees, hagrees⟩

section

def looseMask (msbNbits : ℕ) : UInt64 :=
  if msbNbits ≠ 0 then ~~~((1 <<< UInt64.ofNat (64 - msbNbits)) - 1) else 0

def maskedBytes (h : Hash) : ℕ → ℕ → Bytes
  | 0, _ => []
  | n + 1, nbits =>
    let msbNbits := min 64 nbits
    maskedBytes h n (nbits - msbNbits) ++ littleEndian 8 (word h.bytes n &&& looseMask msbNbits).toNat

theorem length_maskedBytes (h : Hash) (n nbits : ℕ) : (maskedBytes h n nbits).length = 8 * n := by
  induction n generalizing nbits with
  | zero => rfl
  | succ n ih => rw [maskedBytes, List.length_append, ih, littleEndian_length, Nat.mul_succ]

def makeHash32LooseTemplate (nbits : ℕ) (h : Hash) : Hash := ⟨maskedBytes h 4 nbits, length_maskedBytes h 4 nbits⟩

theorem toNat_and_looseMask (w : UInt64) {m : ℕ} (hm : m ≤ 64) :
    (w &&& looseMask m).toNat = w.toNat / 2 ^ (64 - m) * 2 ^ (64 - m) := by
  rw [looseMask]
  split_ifs with hzero
  · generalize hk : 64 - m = k
    have hk64 : k < 64 := by omega
    have hone : (1 : UInt64).toNat = 1 := rfl
    have hshift : ((1 : UInt64) <<< UInt64.ofNat k).toNat = 2 ^ k := by
      have hk' : (UInt64.ofNat k).toNat % 64 = k := by
        rw [UInt64.toNat_ofNat_of_lt' (hk64.trans (by decide)), Nat.mod_eq_of_lt hk64]
      rw [UInt64.toNat_shiftLeft, hk', hone, Nat.shiftLeft_eq, Nat.one_mul]
      exact Nat.mod_eq_of_lt (Nat.pow_lt_pow_right (by decide) hk64)
    have hlow : ((1 : UInt64) <<< UInt64.ofNat k - 1).toNat = 2 ^ k - 1 := by
      rw [UInt64.toNat_sub_of_le _ _ (by rw [UInt64.le_iff_toNat_le, hshift]; exact Nat.one_le_two_pow), hshift, hone]
    have hlt : 2 ^ k - 1 < 2 ^ 64 := lt_of_le_of_lt (Nat.sub_le _ _) (Nat.pow_lt_pow_right (by decide) hk64)
    have hsize : UInt64.size - 1 - (2 ^ k - 1) = 2 ^ 64 - (2 ^ k - 1 + 1) := by
      have : UInt64.size = 2 ^ 64 := rfl
      omega
    rw [UInt64.toNat_and, UInt64.toNat_not, hlow, hsize]
    refine Nat.eq_of_testBit_eq fun i => ?_
    rw [Nat.testBit_and, Nat.testBit_two_pow_sub_succ hlt, Nat.testBit_two_pow_sub_one, Nat.testBit_mul_two_pow,
      Nat.testBit_div_two_pow]
    by_cases hi : k ≤ i
    · have hbit : i < 64 ∨ w.toNat.testBit i = false := by
        rcases Nat.lt_or_ge i 64 with hlow | hhigh
        · exact .inl hlow
        · exact .inr (Nat.testBit_lt_two_pow (w.toNat_lt.trans_le (Nat.pow_le_pow_right (by decide) hhigh)))
      rw [Nat.sub_add_cancel hi]
      rcases hbit with hbit | hbit <;> simp [hi, hbit]
    · simp [hi, not_le.mp hi]
  · obtain rfl : m = 0 := not_not.mp hzero
    rw [Nat.sub_zero, Nat.div_eq_of_lt w.toNat_lt, Nat.zero_mul, UInt64.and_zero]
    rfl

theorem ofLittleEndian_maskedBytes (h : Hash) {n : ℕ} (hn : n ≤ 4) (nbits : ℕ) :
    ofLittleEndian (maskedBytes h n nbits) =
      ofLittleEndian (h.bytes.take (8 * n)) / 2 ^ (64 * n - min (64 * n) nbits) *
        2 ^ (64 * n - min (64 * n) nbits) := by
  induction n generalizing nbits with
  | zero => simp [maskedBytes, ofLittleEndian]
  | succ n ih =>
    have hn' : n ≤ 4 := by omega
    have hword := toNat_and_looseMask (word h.bytes n) (Nat.min_le_left 64 nbits)
    have hfits : (word h.bytes n &&& looseMask (min 64 nbits)).toNat < 256 ^ 8 := UInt64.toNat_lt _
    rw [lowWords_succ h hn', topBits_eq (lowWords_lt h hn'), maskedBytes, ofLittleEndian_append, length_maskedBytes,
      ofLittleEndian_littleEndian _ _ hfits, ih hn', hword, pow_words]
    rcases Nat.lt_or_ge nbits 64 with hfew | hmany
    · have hexp : 64 * (n + 1) - min (64 * (n + 1)) nbits = 64 * n + (64 - nbits) := by omega
      rw [hexp, Nat.min_eq_right hfew.le, Nat.sub_self, Nat.min_zero, Nat.sub_zero, Nat.div_eq_of_lt (lowWords_lt h hn'),
        pow_add]
      ring
    · have hexp : 64 * (n + 1) - min (64 * (n + 1)) nbits = 64 * n - min (64 * n) (nbits - 64) := by omega
      rw [hexp, Nat.min_eq_left hmany, Nat.sub_self, pow_zero, Nat.div_one, Nat.mul_one, Nat.add_mul, Nat.mul_right_comm,
        ← pow_add]
      congr 3
      omega

theorem hashKey_makeHash32LooseTemplate (nbits : ℕ) (h : Hash) :
    hashKey (makeHash32LooseTemplate nbits h) = firstBits nbits h * 2 ^ (256 - min 256 nbits) := by
  rw [hashKey, makeHash32LooseTemplate, ofLittleEndian_maskedBytes h (Nat.le_refl 4),
    List.take_of_length_le (by rw [h.length_eq])]
  rfl

theorem hashKey_le_of_agrees {template h : Hash} {bits : ℕ} (hmasked : makeHash32LooseTemplate bits template = template)
    (hagrees : agrees template bits h = true) : hashKey template ≤ hashKey h := by
  have hsame : firstBits bits template = firstBits bits h := by simpa [agrees] using hagrees
  rw [← hmasked, hashKey_makeHash32LooseTemplate, hsame]
  exact Nat.div_mul_le_self _ _

end

section

def numberedHash (n : ℕ) : Hash := ⟨littleEndian 32 n, littleEndian_length 32 n⟩

def oneRow {ν : Type} (n : ℕ) (v : ν) : ByHash ν := ⟨[(numberedHash n, v)], List.pairwise_singleton _ _⟩

theorem txids_loose_masked : TxidTables.Exact ⟨oneRow 3 ⟨0, 0, 0⟩, oneRow 4 ()⟩ (numberedHash 0) 8 := by
  have hmasked : makeHash32LooseTemplate 8 (numberedHash 0) = numberedHash 0 := by decide +kernel
  refine (txids_loose_iff _ _ _).mpr ⟨fun h _ hagrees => hashKey_le_of_agrees hmasked hagrees, ?_⟩
  intro h hchain hpool
  obtain rfl : h = numberedHash 3 := by simpa [oneRow, OrderedMap.keys] using hchain
  exact absurd hpool (by decide +kernel)

theorem txids_loose_missed :
    ¬ TxidTables.Exact ⟨oneRow 3 ⟨0, 0, 0⟩, (⟨[], .nil⟩ : ByHash Unit)⟩ (numberedHash 5) 8 := by
  rintro ⟨txids, -, hmem, hget⟩
  have hfound : numberedHash 3 ∈ txids := (hmem _).mpr (by decide +kernel)
  have hnone := hget 0
  rw [if_neg (by simp)] at hnone
  have hempty : TxidTables.getTxidsLoose ⟨oneRow 3 ⟨0, 0, 0⟩, (⟨[], .nil⟩ : ByHash Unit)⟩ (numberedHash 5) 8 0 = some [] := by
    decide +kernel
  rw [hempty, Option.some.injEq] at hnone
  rw [← hnone] at hfound
  cases hfound

end

end Velkavo.BlockchainDb
