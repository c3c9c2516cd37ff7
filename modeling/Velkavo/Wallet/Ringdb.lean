import Mathlib.Data.List.ReduceOption
import Velkavo.BlockchainDb.TxidsLoose
import Velkavo.Cryptonote.KeyOffsets
import Velkavo.Effects.Runs

/-! The wallet's database of the rings it has used and of the outputs known to be spent. -/

namespace Velkavo.Wallet

open ByteCodec Cryptonote BlockchainDb

inductive MdbError
  | keyexist
  | notfound
  deriving DecidableEq, Repr

def mdbStrerror : MdbError → String
  | .keyexist => "MDB_KEYEXIST: Key/data pair already exists"
  | .notfound => "MDB_NOTFOUND: No matching key/data pair found"

abbrev SpentOutput := UInt64 × UInt64

inductive BlackballOp
  | blackball
  | unblackball
  | query
  | clear
  deriving DecidableEq, Repr

/-- The two primitives, with the key: ChaCha20 adds to the data a stream that only depends on the key and the iv. -/
structure RingCipher where
  cnFastHash : Bytes → Hash
  keystream : Blob 32 → Bytes → ℕ → UInt8
  chachaKey : Blob 32

def v1tag : UInt64 := 798237759845202

def compressRing (ring : List UInt64) (tag : UInt64) : Bytes :=
  writeVarint tag.toNat ++ ring.flatMap fun out => writeVarint out.toNat

-- every round takes at least one byte, so as many rounds as there are bytes are enough
def decompressLoop : ℕ → Bytes → UInt64 → List UInt64 → Except String (List UInt64)
  | 0, _, _, ring => .ok ring
  | rounds + 1, s, tag, ring =>
    if s = [] then .ok ring
    else
      match readVarint .accept 64 s with
      | none => .error "Internal error decompressing ring"
      | some (out, rest) =>
        if tag ≠ 0 then
          if tag ≠ UInt64.ofNat out then .ok [] else decompressLoop rounds rest 0 ring
        else decompressLoop rounds rest 0 (ring ++ [UInt64.ofNat out])

def decompressRing (s : Bytes) (tag : UInt64) : Except String (List UInt64) := decompressLoop s.length s tag []

def hashKeyRingdb : Bytes := [0x72, 0x69, 0x6e, 0x67, 0x64, 0x73, 0x62, 0x00]

namespace RingCipher

variable (c : RingCipher)

def makeIv (keyImage : KeyImage) (field : UInt8) : Bytes :=
  let buffer := keyImage.bytes ++ c.chachaKey.bytes ++ hashKeyRingdb ++ [field]
  -- field 0 is the older format, hashed without the field
  (c.cnFastHash (buffer.take (buffer.length - if field = 0 then 1 else 0))).bytes.take 8

def chacha20 (data iv : Bytes) : Bytes := data.mapIdx fun i b => b ^^^ c.keystream c.chachaKey iv i

def encrypt (plaintext : Bytes) (keyImage : KeyImage) (field : UInt8) : Bytes :=
  c.makeIv keyImage field ++ c.chacha20 plaintext (c.makeIv keyImage field)

def encryptKeyImage (keyImage : KeyImage) (field : UInt8) : Bytes := c.encrypt keyImage.bytes keyImage field

def decrypt (ciphertext : Bytes) (keyImage : KeyImage) (field : UInt8) : Except String Bytes :=
  if ciphertext.length < 8 then .error "Bad ciphertext text"
  else .ok (c.chacha20 (ciphertext.drop 8) (c.makeIv keyImage field))

def Separates : Prop :=
  ∀ a b : KeyImage, c.makeIv a 0 = c.makeIv b 0 → a.bytes.take 24 = b.bytes.take 24 → a = b

end RingCipher

/-- The rows stand in the order of `compare_hash32`, which looks at the first 32 of the 40 bytes. -/
def ringRowKey (key : Bytes) : ℕ := ofLittleEndian (key.take 32)

def outputRowKey (output : SpentOutput) : ℕ ×ₗ ℕ := toLex (output.1.toNat, output.2.toNat)

abbrev RingTable := OrderedMap ringRowKey Bytes

abbrev BlackballTable := OrderedMap outputRowKey Unit

structure Ringdb where
  rings : RingTable
  blackballs : BlackballTable

section

variable (c : RingCipher)

def storeRelativeRing (rings : RingTable) (keyImage : KeyImage) (relativeRing : List UInt64) : RingTable :=
  rings.assign (c.encryptKeyImage keyImage 0) (c.encrypt (compressRing relativeRing v1tag) keyImage 1)

/-- The input, when it has a ring to keep: `ring_size` is a 32-bit number. -/
def ringInput? : Txin → Option TxinToKey
  | .toKey txin => if UInt32.ofNat txin.keyOffsets.length = 1 then none else some txin
  | _ => none

def addRings (rings : RingTable) (tx : TransactionPrefix) : RingTable :=
  (tx.vin.filterMap ringInput?).foldl (fun t txin => storeRelativeRing c t txin.kImage txin.keyOffsets) rings

def setRings (rings : RingTable) (new : List (KeyImage × List UInt64)) (relative : Bool) : RingTable :=
  new.foldl (fun t e =>
    storeRelativeRing c t e.1 (if relative then e.2 else absoluteOutputOffsetsToRelative e.2)) rings

def removeRing (rings : RingTable) (keyImage : KeyImage) : Except String RingTable :=
  match rings.find? (c.encryptKeyImage keyImage 0) with
  | none => .ok rings
  | some data =>
    if data.length = 0 then .error "Invalid ring data size" else .ok (rings.erase (c.encryptKeyImage keyImage 0))

def removeRings (rings : RingTable) (keyImages : List KeyImage) : Except String RingTable :=
  keyImages.foldlM (removeRing c) rings

def removeTxRings (rings : RingTable) (tx : TransactionPrefix) : Except String RingTable :=
  removeRings c rings ((tx.vin.filterMap ringInput?).map TxinToKey.kImage)

def readRing (keyImage : KeyImage) (data : Bytes) : Except String (List UInt64) :=
  if data.length = 0 then .error "Invalid ring data size"
  else do
    let dataPlaintext ← c.decrypt data keyImage 1
    match decompressRing dataPlaintext v1tag with
    | .ok (out :: outs) => return relativeOutputOffsetsToAbsolute (out :: outs)
    | _ =>
      let dataPlaintext ← c.decrypt data keyImage 0
      let outs ← decompressRing dataPlaintext 0
      return relativeOutputOffsetsToAbsolute outs

def getRingsLoop (rings : RingTable) (allOuts : List (List UInt64)) :
    List KeyImage → Except String (Bool × List (List UInt64))
  | [] => .ok (true, allOuts)
  | keyImage :: rest =>
    match rings.find? (c.encryptKeyImage keyImage 0) with
    | none => .ok (false, allOuts)
    | some data => do
      let outs ← readRing c keyImage data
      getRingsLoop rings (allOuts ++ [outs]) rest

def getRings (db : Ringdb) (keyImages : List KeyImage) : Except String (Bool × List (List UInt64)) :=
  getRingsLoop c db.rings [] keyImages

end

section

variable (blackballs : BlackballTable)

def mdbGetBoth (output : SpentOutput) : Option MdbError :=
  if (blackballs.find? output).isSome then none else some .notfound

def mdbPut (output : SpentOutput) : BlackballTable × Option MdbError :=
  if (blackballs.find? output).isSome then (blackballs, some .keyexist) else (blackballs.assign output (), none)

end

def checkDbr (dbr : Option MdbError) (s : BlackballTable × Bool) : Except String (BlackballTable × Bool) :=
  match dbr with
  | none => .ok s
  | some e => .error ("Failed to query blackballs table: " ++ mdbStrerror e)

def blackballOutput (op : BlackballOp) (s : BlackballTable × Bool) (output : SpentOutput) :
    Except String (BlackballTable × Bool) :=
  match op with
  | .blackball =>
    let put := mdbPut s.1 output
    checkDbr (if put.2 = some .keyexist then none else put.2) (put.1, s.2)
  | .unblackball =>
    match mdbGetBoth s.1 output with
    | none => checkDbr none (s.1.erase output, s.2)
    | some e => checkDbr (some e) s
  | .query =>
    match mdbGetBoth s.1 output with
    | none => checkDbr none (s.1, true)
    | some .notfound => checkDbr none (s.1, false)
    | some e => .error ("Failed to lookup in blackballs table: " ++ mdbStrerror e)
  | .clear => checkDbr none s

def blackballWorker (db : Ringdb) (outputs : List SpentOutput) (op : BlackballOp) : Except String (Ringdb × Bool) :=
  if outputs.length > 1 ∧ op = .query then .error "Blackball query only makes sense for a single output"
  else do
    let s ← outputs.foldlM (blackballOutput op) (db.blackballs, true)
    return ({ db with blackballs := if op = .clear then ∅ else s.1 }, s.2)

def blackballed (db : Ringdb) (output : SpentOutput) : Except String Bool :=
  Prod.snd <$> blackballWorker db [output] .query

inductive RingdbCall
  | setRings (rings : List (KeyImage × List UInt64)) (relative : Bool)
  | addRings (tx : TransactionPrefix)
  | removeRings (keyImages : List KeyImage)
  | removeTxRings (tx : TransactionPrefix)
  | blackball (outputs : List SpentOutput)
  | unblackball (output : SpentOutput)
  | clearBlackballs

namespace Ringdb

variable (c : RingCipher)

def perform (db : Ringdb) : RingdbCall → Except String Ringdb
  | .setRings rings relative => .ok { db with rings := Wallet.setRings c db.rings rings relative }
  | .addRings tx => .ok { db with rings := Wallet.addRings c db.rings tx }
  | .removeRings keyImages => do
    let rings ← Wallet.removeRings c db.rings keyImages
    return { db with rings }
  | .removeTxRings tx => do
    let rings ← Wallet.removeTxRings c db.rings tx
    return { db with rings }
  | .blackball outputs => Prod.fst <$> blackballWorker db outputs .blackball
  | .unblackball output => Prod.fst <$> blackballWorker db [output] .unblackball
  | .clearBlackballs => Prod.fst <$> blackballWorker db [] .clear

/-- A call that throws leaves its transaction to be aborted. -/
def next (db : Ringdb) (call : RingdbCall) : Ringdb := (db.perform c call).toOption.getD db

def after (calls : List RingdbCall) : Ringdb := calls.foldl (next c) ⟨∅, ∅⟩

end Ringdb

/-- What the database is for: the absolute ring last stored for a key image, and the set of spent outputs. -/
structure RingBook where
  rings : KeyImage → Option (List UInt64)
  spent : Finset SpentOutput

namespace RingBook

def call (b : RingBook) : RingdbCall → RingBook
  | .setRings rings relative =>
    { b with rings := rings.foldl (fun f e =>
        Function.update f e.1 (some (if relative then relativeOutputOffsetsToAbsolute e.2 else e.2))) b.rings }
  | .addRings tx =>
    { b with rings := (tx.vin.filterMap ringInput?).foldl (fun f txin =>
        Function.update f txin.kImage (some (relativeOutputOffsetsToAbsolute txin.keyOffsets))) b.rings }
  | .removeRings keyImages => { b with rings := keyImages.foldl (fun f ki => Function.update f ki none) b.rings }
  | .removeTxRings tx =>
    { b with rings := ((tx.vin.filterMap ringInput?).map TxinToKey.kImage).foldl (fun f ki =>
        Function.update f ki none) b.rings }
  | .blackball outputs => { b with spent := outputs.foldl (fun s o => insert o s) b.spent }
  | .unblackball output => { b with spent := b.spent.erase output }
  | .clearBlackballs => { b with spent := ∅ }

def after (calls : List RingdbCall) : RingBook := calls.foldl call ⟨fun _ => none, ∅⟩

end RingBook

def RingdbCall.Sound : RingdbCall → Prop
  | .setRings rings relative => ∀ e ∈ rings, e.2 ≠ [] ∧ (relative = false → e.2.Pairwise (· ≤ ·))
  | .addRings tx => ∀ txin ∈ tx.vin.filterMap ringInput?, txin.keyOffsets ≠ []
  | _ => True

section

theorem readVarint_writeVarint (out : UInt64) (rest : Bytes) :
    readVarint .accept 64 (writeVarint out.toNat ++ rest) = some (out.toNat, rest) := by
  have h := readVarintLoop_write .accept 64 out.toNat 0 0 rest (by decide)
  rw [Nat.zero_add, pow_zero, Nat.mul_one] at h
  exact h out.toNat_lt fun hne => absurd rfl hne

theorem decompressLoop_varint {rounds : ℕ} {out tag : UInt64} {rest : Bytes} {ring : List UInt64} :
    decompressLoop (rounds + 1) (writeVarint out.toNat ++ rest) tag ring =
      if tag ≠ 0 then if tag ≠ out then .ok [] else decompressLoop rounds rest 0 ring
      else decompressLoop rounds rest 0 (ring ++ [out]) := by
  have hne : writeVarint out.toNat ++ rest ≠ [] := List.append_ne_nil_of_left_ne_nil (writeVarint_ne_nil _) _
  rw [decompressLoop, if_neg hne, readVarint_writeVarint]
  simp only [UInt64.ofNat_toNat]

theorem decompressLoop_offsets (offsets : List UInt64) {rounds : ℕ} {ring : List UInt64}
    (h : (offsets.flatMap fun out => writeVarint out.toNat).length ≤ rounds) :
    decompressLoop rounds (offsets.flatMap fun out => writeVarint out.toNat) 0 ring = .ok (ring ++ offsets) := by
  induction offsets generalizing rounds ring with
  | nil =>
    rw [List.flatMap_nil, List.append_nil]
    cases rounds with
    | zero => rfl
    | succ rounds => rw [decompressLoop, if_pos rfl]
  | cons out offsets ih =>
    have hpos := List.length_pos_of_ne_nil (writeVarint_ne_nil out.toNat)
    rw [List.flatMap_cons, List.length_append] at h
    obtain ⟨rounds, rfl⟩ : ∃ n, rounds = n + 1 := ⟨rounds - 1, by omega⟩
    rw [List.flatMap_cons, decompressLoop_varint, if_neg (not_not.mpr rfl), ih (by omega), List.append_assoc,
      List.singleton_append]

theorem decompressRing_compressRing (ring : List UInt64) : decompressRing (compressRing ring v1tag) v1tag = .ok ring := by
  have hpos := List.length_pos_of_ne_nil (writeVarint_ne_nil v1tag.toNat)
  have hlen : (compressRing ring v1tag).length =
      (writeVarint v1tag.toNat).length - 1 + (ring.flatMap fun out => writeVarint out.toNat).length + 1 := by
    rw [compressRing, List.length_append]
    omega
  rw [decompressRing, hlen, compressRing, decompressLoop_varint, if_pos (by decide), if_neg (not_not.mpr rfl),
    decompressLoop_offsets ring (Nat.le_add_left _ _), List.nil_append]

end

section

variable {c : RingCipher}

theorem length_makeIv (keyImage : KeyImage) (field : UInt8) : (c.makeIv keyImage field).length = 8 := by
  rw [RingCipher.makeIv, List.length_take, Blob.length_eq]
  rfl

theorem chacha20_chacha20 (data iv : Bytes) : c.chacha20 (c.chacha20 data iv) iv = data := by
  apply List.ext_getElem
  · simp [RingCipher.chacha20]
  · intro i h h'
    simp only [RingCipher.chacha20, List.getElem_mapIdx]
    rw [UInt8.xor_assoc, UInt8.xor_self, UInt8.xor_zero]

theorem decrypt_encrypt (plaintext : Bytes) (keyImage : KeyImage) (field : UInt8) :
    c.decrypt (c.encrypt plaintext keyImage field) keyImage field = .ok plaintext := by
  have hlen := length_makeIv (c := c) keyImage field
  rw [RingCipher.decrypt, RingCipher.encrypt, if_neg (by rw [List.length_append]; omega), List.drop_left' hlen,
    chacha20_chacha20]

theorem take_chacha20 (n : ℕ) (data iv : Bytes) : (c.chacha20 data iv).take n = c.chacha20 (data.take n) iv := by
  apply List.ext_getElem
  · simp [RingCipher.chacha20]
  · intro i h h'
    simp [RingCipher.chacha20]

theorem compareHash32_ringRowKey {a b : Bytes} (ha : (a.take 32).length = 32) (hb : (b.take 32).length = 32) :
    compareHash32 ⟨a.take 32, ha⟩ ⟨b.take 32, hb⟩ = compare (ringRowKey a) (ringRowKey b) := compareHash32_eq _ _

theorem take_encryptKeyImage (keyImage : KeyImage) :
    (c.encryptKeyImage keyImage 0).take 32 =
      c.makeIv keyImage 0 ++ c.chacha20 (keyImage.bytes.take 24) (c.makeIv keyImage 0) := by
  rw [RingCipher.encryptKeyImage, RingCipher.encrypt, List.take_append, length_makeIv,
    List.take_of_length_le (by rw [length_makeIv]; decide), take_chacha20]

theorem ringRowKey_injective (hsep : c.Separates) {a b : KeyImage}
    (h : ringRowKey (c.encryptKeyImage a 0) = ringRowKey (c.encryptKeyImage b 0)) : a = b := by
  have hlen : ∀ ki : KeyImage, ((c.encryptKeyImage ki 0).take 32).length = 32 := by
    intro ki
    rw [take_encryptKeyImage, List.length_append, length_makeIv, RingCipher.chacha20, List.length_mapIdx, List.length_take,
      ki.length_eq]
    rfl
  have hbytes : (c.encryptKeyImage a 0).take 32 = (c.encryptKeyImage b 0).take 32 := by
    rw [← littleEndian_ofLittleEndian ((c.encryptKeyImage a 0).take 32), hlen a,
      ← littleEndian_ofLittleEndian ((c.encryptKeyImage b 0).take 32), hlen b]
    exact congrArg (littleEndian 32) h
  rw [take_encryptKeyImage, take_encryptKeyImage] at hbytes
  obtain ⟨hiv, hstream⟩ := List.append_inj hbytes (by rw [length_makeIv, length_makeIv])
  apply hsep a b hiv
  -- with one iv the streams are the same, so they can be taken off
  rw [← chacha20_chacha20 (c := c) (a.bytes.take 24) (c.makeIv a 0), hstream, hiv, chacha20_chacha20]

end

section

variable {c : RingCipher}

def ringData (c : RingCipher) (keyImage : KeyImage) (relativeRing : List UInt64) : Bytes :=
  c.encrypt (compressRing relativeRing v1tag) keyImage 1

theorem length_ringData_ne_zero (keyImage : KeyImage) (relativeRing : List UInt64) :
    (ringData c keyImage relativeRing).length ≠ 0 := by
  rw [ringData, RingCipher.encrypt, List.length_append, length_makeIv]
  omega

theorem readRing_ringData (keyImage : KeyImage) {relativeRing : List UInt64} (h : relativeRing ≠ []) :
    readRing c keyImage (ringData c keyImage relativeRing) = .ok (relativeOutputOffsetsToAbsolute relativeRing) := by
  obtain ⟨out, outs, rfl⟩ := List.exists_cons_of_ne_nil h
  rw [readRing, if_neg (length_ringData_ne_zero _ _), ringData, decrypt_encrypt]
  simp only [bind, Except.bind, decompressRing_compressRing]
  rfl

def KeepsRings (c : RingCipher) (t : RingTable) (f : KeyImage → Option (List UInt64)) : Prop :=
  ∀ ki, ∃ row : Option (List UInt64), (∀ r ∈ row, r ≠ []) ∧ f ki = row.map relativeOutputOffsetsToAbsolute ∧
    t.find? (c.encryptKeyImage ki 0) = row.map (ringData c ki)

variable {t : RingTable} {f : KeyImage → Option (List UInt64)}

theorem KeepsRings.store (hsep : c.Separates) (h : KeepsRings c t f) (keyImage : KeyImage) {relativeRing : List UInt64}
    (hne : relativeRing ≠ []) :
    KeepsRings c (storeRelativeRing c t keyImage relativeRing)
      (Function.update f keyImage (some (relativeOutputOffsetsToAbsolute relativeRing))) := by
  intro ki
  rw [storeRelativeRing, OrderedMap.find?_assign]
  by_cases hki : ki = keyImage
  · subst hki
    refine ⟨some relativeRing, fun r hr => Option.some_inj.mp hr ▸ hne, Function.update_self _ _ _, if_pos rfl⟩
  · rw [Function.update_of_ne hki, if_neg fun heq => hki (ringRowKey_injective hsep heq)]
    exact h ki

theorem KeepsRings.erase (hsep : c.Separates) (h : KeepsRings c t f) (keyImage : KeyImage) :
    KeepsRings c (t.erase (c.encryptKeyImage keyImage 0)) (Function.update f keyImage none) := by
  intro ki
  rw [OrderedMap.find?_erase]
  by_cases hki : ki = keyImage
  · subst hki
    exact ⟨none, fun r hr => absurd hr (Option.not_mem_none r), Function.update_self _ _ _, if_pos rfl⟩
  · rw [Function.update_of_ne hki, if_neg fun heq => hki (ringRowKey_injective hsep heq)]
    exact h ki

theorem KeepsRings.storeAll (hsep : c.Separates) (h : KeepsRings c t f) {α : Type} {l : List α} {keyImage : α → KeyImage}
    {offsets ring : α → List UInt64}
    (hl : ∀ a ∈ l, offsets a ≠ [] ∧ relativeOutputOffsetsToAbsolute (offsets a) = ring a) :
    KeepsRings c (l.foldl (fun t a => storeRelativeRing c t (keyImage a) (offsets a)) t)
      (l.foldl (fun f a => Function.update f (keyImage a) (some (ring a))) f) := by
  apply List.foldl_rel h
  intro a ha t f hkeeps
  rw [← (hl a ha).2]
  exact hkeeps.store hsep (keyImage a) (hl a ha).1

theorem KeepsRings.removeRing (hsep : c.Separates) (h : KeepsRings c t f) (keyImage : KeyImage) :
    ∃ t', Wallet.removeRing c t keyImage = .ok t' ∧ KeepsRings c t' (Function.update f keyImage none) := by
  obtain ⟨row, -, hf, hfind⟩ := h keyImage
  rw [Wallet.removeRing, hfind]
  cases row with
  | none =>
    refine ⟨t, rfl, ?_⟩
    rwa [Function.update_eq_self_iff.mpr hf.symm]
  | some r => exact ⟨_, if_neg (length_ringData_ne_zero keyImage r), h.erase hsep keyImage⟩

theorem KeepsRings.removeRings (hsep : c.Separates) (h : KeepsRings c t f) (keyImages : List KeyImage) :
    ∃ t', Wallet.removeRings c t keyImages = .ok t' ∧
      KeepsRings c t' (keyImages.foldl (fun f ki => Function.update f ki none) f) :=
  Effects.foldlM_ok_rel h fun _ _ ki hkeeps => hkeeps.removeRing hsep ki

theorem KeepsRings.getRingsLoop (h : KeepsRings c t f) (keyImages : List KeyImage) (allOuts : List (List UInt64)) :
    Wallet.getRingsLoop c t allOuts keyImages =
      .ok (keyImages.all fun ki => (f ki).isSome, allOuts ++ ((keyImages.map f).takeWhile Option.isSome).reduceOption) := by
  induction keyImages generalizing allOuts with
  | nil =>
    rw [Wallet.getRingsLoop, List.map_nil, List.takeWhile_nil, List.reduceOption_nil, List.append_nil]
    rfl
  | cons ki rest ih =>
    obtain ⟨row, hrow, hf, hfind⟩ := h ki
    rw [Wallet.getRingsLoop, hfind]
    cases row with
    | none => simp [hf]
    | some r =>
      have hread := readRing_ringData (c := c) ki (hrow r rfl)
      simp only [Option.map_some, hread, bind, Except.bind, ih]
      simp [hf, List.reduceOption_cons_of_some]

def KeepsSpent (t : BlackballTable) (s : Finset SpentOutput) : Prop := ∀ o, (t.find? o).isSome ↔ o ∈ s

theorem outputRowKey_injective : Function.Injective outputRowKey := by
  intro a b h
  have hpair := Prod.ext_iff.mp (toLex.injective h)
  exact Prod.ext (UInt64.toNat_inj.mp hpair.1) (UInt64.toNat_inj.mp hpair.2)

variable {bt : BlackballTable} {s : Finset SpentOutput}

theorem KeepsSpent.put (h : KeepsSpent bt s) (o : SpentOutput) (ret : Bool) :
    ∃ bt', blackballOutput .blackball (bt, ret) o = .ok (bt', ret) ∧ KeepsSpent bt' (insert o s) := by
  by_cases ho : o ∈ s
  · refine ⟨bt, ?_, ?_⟩
    · simp [blackballOutput, mdbPut, (h o).mpr ho, checkDbr]
    · rwa [Finset.insert_eq_of_mem ho]
  · refine ⟨bt.assign o (), ?_, fun o' => ?_⟩
    · have hnone := (not_congr (h o)).mpr ho
      simp [blackballOutput, mdbPut, hnone, checkDbr]
    · simp only [OrderedMap.find?_assign, outputRowKey_injective.eq_iff, Finset.mem_insert, ← h o']
      split_ifs with heq
      · exact iff_of_true rfl (.inl heq)
      · rw [or_iff_right heq]

theorem KeepsSpent.putAll (h : KeepsSpent bt s) (outputs : List SpentOutput) (ret : Bool) :
    ∃ bt', outputs.foldlM (blackballOutput .blackball) (bt, ret) = .ok (bt', ret) ∧
      KeepsSpent bt' (outputs.foldl (fun s o => insert o s) s) := by
  obtain ⟨⟨bt', ret'⟩, hput, rfl, hkeeps⟩ := @Effects.foldlM_ok_rel _ _ outputs _ _ (fun x s => x.2 = ret ∧ KeepsSpent x.1 s)
    (blackballOutput .blackball) (fun s o => insert o s) (bt, ret) s ⟨rfl, h⟩ (by
      rintro ⟨bt, ret⟩ s o ⟨rfl, h⟩
      obtain ⟨bt', hput, hkeeps⟩ := h.put o ret
      exact ⟨(bt', ret), hput, rfl, hkeeps⟩)
  exact ⟨bt', hput, hkeeps⟩

theorem KeepsSpent.erase (h : KeepsSpent bt s) (o : SpentOutput) : KeepsSpent (bt.erase o) (s.erase o) := by
  intro o'
  simp only [OrderedMap.find?_erase, outputRowKey_injective.eq_iff, Finset.mem_erase, ← h o']
  split_ifs with heq
  · exact iff_of_false Bool.false_ne_true fun hmem => hmem.1 heq
  · rw [and_iff_right heq]

end

namespace Ringdb

structure Refines (c : RingCipher) (db : Ringdb) (b : RingBook) : Prop where
  rings : KeepsRings c db.rings b.rings
  spent : KeepsSpent db.blackballs b.spent

variable {c : RingCipher} {db : Ringdb} {b : RingBook}

theorem perform_unblackball (h : db.Refines c b) (o : SpentOutput) :
    db.perform c (.unblackball o) =
      if o ∈ b.spent then .ok { db with blackballs := db.blackballs.erase o }
      else .error ("Failed to query blackballs table: " ++ mdbStrerror .notfound) := by
  have hspent := h.spent o
  rw [perform, blackballWorker, if_neg (by simp), List.foldlM_cons, blackballOutput, mdbGetBoth]
  by_cases ho : o ∈ b.spent
  · rw [if_pos ho, if_pos (hspent.mpr ho)]
    rfl
  · rw [if_neg ho, if_neg (mt hspent.mp ho)]
    rfl

theorem Refines.perform (hsep : c.Separates) (h : db.Refines c b) {call : RingdbCall} (hsound : call.Sound) :
    (∃ db', db.perform c call = .ok db' ∧ db'.Refines c (b.call call)) ∨
      ∃ o, call = .unblackball o ∧ o ∉ b.spent := by
  cases call with
  | setRings rings relative =>
    refine .inl ⟨_, rfl, h.rings.storeAll hsep fun e he => ?_, h.spent⟩
    obtain ⟨hne, hsorted⟩ := hsound e he
    cases relative with
    | true => exact ⟨hne, rfl⟩
    | false =>
      have habs := relativeOutputOffsetsToAbsolute_absolute (hsorted rfl)
      refine ⟨fun hnil => hne ?_, habs⟩
      rw [← habs]
      exact congrArg relativeOutputOffsetsToAbsolute hnil
  | addRings tx => exact .inl ⟨_, rfl, h.rings.storeAll hsep fun txin hmem => ⟨hsound txin hmem, rfl⟩, h.spent⟩
  | removeRings keyImages =>
    obtain ⟨t, ht, hkeeps⟩ := h.rings.removeRings hsep keyImages
    refine .inl ⟨{ db with rings := t }, ?_, hkeeps, h.spent⟩
    rw [Ringdb.perform, ht]
    rfl
  | removeTxRings tx =>
    obtain ⟨t, ht, hkeeps⟩ := h.rings.removeRings hsep ((tx.vin.filterMap ringInput?).map TxinToKey.kImage)
    refine .inl ⟨{ db with rings := t }, ?_, hkeeps, h.spent⟩
    rw [Ringdb.perform, removeTxRings, ht]
    rfl
  | blackball outputs =>
    obtain ⟨t, ht, hkeeps⟩ := h.spent.putAll outputs true
    refine .inl ⟨{ db with blackballs := t }, ?_, h.rings, hkeeps⟩
    rw [Ringdb.perform, blackballWorker, if_neg (by simp), ht]
    rfl
  | unblackball o =>
    by_cases ho : o ∈ b.spent
    · exact .inl ⟨_, (perform_unblackball h o).trans (if_pos ho), h.rings, h.spent.erase o⟩
    · exact .inr ⟨o, rfl, ho⟩
  | clearBlackballs => exact .inl ⟨{ db with blackballs := ∅ }, rfl, h.rings, fun o => by simp [RingBook.call]⟩

theorem Refines.next (hsep : c.Separates) (h : db.Refines c b) {call : RingdbCall} (hsound : call.Sound) :
    (db.next c call).Refines c (b.call call) := by
  rw [Ringdb.next]
  rcases h.perform hsep hsound with ⟨db', hperform, hrefines⟩ | ⟨o, rfl, ho⟩
  · rw [hperform]
    exact hrefines
  · rw [perform_unblackball h, if_neg ho]
    -- the aborted call left the table as it was, and so does the set
    refine ⟨h.rings, ?_⟩
    rw [RingBook.call, Finset.erase_eq_of_notMem ho]
    exact h.spent

theorem refines_after (hsep : c.Separates) {calls : List RingdbCall} (hsound : ∀ call ∈ calls, call.Sound) :
    (after c calls).Refines c (RingBook.after calls) := by
  refine List.foldl_rel ⟨fun ki => ⟨none, fun r hr => absurd hr (Option.not_mem_none r), rfl, rfl⟩, fun o => ?_⟩ ?_
  · simp
  · intro call hmem db b h
    exact h.next hsep (hsound call hmem)

theorem Refines.blackballed (h : db.Refines c b) (o : SpentOutput) :
    Wallet.blackballed db o = .ok (decide (o ∈ b.spent)) := by
  have hspent := h.spent o
  rw [Wallet.blackballed, blackballWorker, if_neg (by simp), List.foldlM_cons, blackballOutput, mdbGetBoth]
  by_cases ho : o ∈ b.spent
  · rw [if_pos (hspent.mpr ho), decide_eq_true ho]
    rfl
  · rw [if_neg (mt hspent.mp ho), decide_eq_false ho]
    rfl

theorem ringdb_refines_book (hsep : c.Separates) (calls : List RingdbCall) (hsound : ∀ call ∈ calls, call.Sound) :
    (∀ keyImages, getRings c (after c calls) keyImages =
      .ok (keyImages.all fun ki => ((RingBook.after calls).rings ki).isSome,
        ((keyImages.map (RingBook.after calls).rings).takeWhile Option.isSome).reduceOption)) ∧
    (∀ o, Wallet.blackballed (after c calls) o = .ok (decide (o ∈ (RingBook.after calls).spent))) ∧
    ((∀ done call rest, calls = done ++ call :: rest → ∃ db, (after c done).perform c call = .ok db) ↔
      ∀ done o rest, calls = done ++ .unblackball o :: rest → o ∈ (RingBook.after done).spent) := by
  have hafter := refines_after hsep hsound
  refine ⟨fun keyImages => hafter.rings.getRingsLoop keyImages [], hafter.blackballed, ?_⟩
  have hdone : ∀ done call rest, calls = done ++ call :: rest →
      (after c done).Refines c (RingBook.after done) ∧ call.Sound := by
    rintro done call rest rfl
    exact ⟨refines_after hsep fun call' hmem => hsound call' (List.mem_append_left _ hmem), hsound call (by simp)⟩
  constructor
  · intro hok done o rest heq
    obtain ⟨db, hdb⟩ := hok done _ rest heq
    rw [perform_unblackball (hdone done _ rest heq).1] at hdb
    by_contra ho
    rw [if_neg ho] at hdb
    cases hdb
  · intro hspent done call rest heq
    obtain ⟨hrefines, hcall⟩ := hdone done call rest heq
    rcases hrefines.perform hsep hcall with ⟨db, hdb, -⟩ | ⟨o, rfl, ho⟩
    · exact ⟨db, hdb⟩
    · exact absurd (hspent done o rest heq) ho

def tailCipher : RingCipher where
  cnFastHash bs := ⟨(bs.drop 24 ++ List.replicate 32 0).take 32, by simp⟩
  keystream _ _ _ := 0
  chachaKey := Blob.fill 32 0

theorem tailCipher_separates : tailCipher.Separates := by
  have hiv : ∀ ki : KeyImage, tailCipher.makeIv ki 0 = ki.bytes.drop 24 := by
    intro ki
    have hlen := ki.length_eq
    simp only [RingCipher.makeIv, tailCipher, hashKeyRingdb, List.append_assoc, List.length_append, hlen, if_true,
      List.take_append, List.drop_append, List.take_take]
    simp [hlen, List.take_of_length_le]
  intro a b h htake
  rw [hiv, hiv] at h
  have hbytes : a.bytes = b.bytes := by rw [← List.take_append_drop 24 a.bytes, htake, h, List.take_append_drop]
  cases a
  cases b
  simpa using hbytes

theorem ringdb_refines_book_tail :
    getRings tailCipher (after tailCipher [.blackball [(0, 5)], .setRings [(Blob.fill 32 7, [3, 5])] false])
      [Blob.fill 32 7] = .ok (true, [[3, 5]]) ∧
    Wallet.blackballed (after tailCipher [.blackball [(0, 5)], .setRings [(Blob.fill 32 7, [3, 5])] false]) (0, 5) =
      .ok true := by
  obtain ⟨hrings, hspent, -⟩ := ringdb_refines_book tailCipher_separates
    [.blackball [(0, 5)], .setRings [(Blob.fill 32 7, [3, 5])] false] (by simp [RingdbCall.Sound])
  rw [hrings, hspent]
  exact ⟨by decide, by decide⟩

theorem unblackball_absent_throws :
    (after tailCipher []).perform tailCipher (.unblackball (0, 5)) =
      .error "Failed to query blackballs table: MDB_NOTFOUND: No matching key/data pair found" := by
  rfl

end Ringdb

end Velkavo.Wallet
