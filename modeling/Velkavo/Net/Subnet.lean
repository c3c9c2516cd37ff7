import Velkavo.Common.StringTools

namespace Velkavo.Net

open ByteCodec StringTools

structure Ipv4NetworkAddress where
  ip : UInt32
  port : UInt16
  deriving DecidableEq, Repr

structure Ipv4NetworkSubnet where
  ip : UInt32
  mask : UInt8
  deriving DecidableEq, Repr

namespace Ipv4NetworkSubnet

def hostMask (s : Ipv4NetworkSubnet) : UInt64 := ~~~(0xffffffff <<< s.mask.toUInt64)

def subnet (s : Ipv4NetworkSubnet) : UInt32 := (s.ip.toUInt64 &&& s.hostMask).toUInt32

def «matches» (s : Ipv4NetworkSubnet) (address : Ipv4NetworkAddress) : Bool :=
  (address.ip.toUInt64 &&& s.hostMask) == s.subnet.toUInt64

end Ipv4NetworkSubnet

inductive Error
  | invalidMask
  | invalidHost
  deriving DecidableEq, Repr

structure Quad where
  a : UInt8
  b : UInt8
  c : UInt8
  d : UInt8
  deriving DecidableEq, Repr

namespace Quad

def octets (q : Quad) : Bytes := [q.a, q.b, q.c, q.d]

def text (q : Quad) : Bytes := (ascii ".").intercalate (q.octets.map fun o => decimal o.toNat)

def word (q : Quad) : UInt32 := UInt32.ofNat (ofLittleEndian q.octets)

def cidrBit (q : Quad) (i : ℕ) : Bool := (q.octets.getD (i / 8) 0).toNat.testBit (7 - i % 8)

end Quad

/-- The C library's `inet_addr`, with what it does on a dotted quad of decimal numbers. -/
structure InetAddr where
  run : Bytes → UInt32
  run_text : ∀ q : Quad, run q.text = q.word

def inaddrNone : UInt32 := 0xffffffff

def getIpInt32FromString (inet : InetAddr) (s : Bytes) : Option UInt32 :=
  if inet.run s = inaddrNone then none else some (inet.run s)

def getIpv4SubnetAddress (inet : InetAddr) (address : Bytes) (allowImplicit32 : Bool) :
    Except Error Ipv4NetworkSubnet := do
  let slash : UInt8 := 0x2f
  let host := address.takeWhile (· ≠ slash)
  let mask ←
    match address.dropWhile (· ≠ slash) with
    | _ :: digits =>
      match getXtypeFromString 32 digits with
      | none => throw .invalidMask
      | some mask => if mask > 32 then throw .invalidMask else pure mask
    | [] => if allowImplicit32 then pure 32 else throw .invalidMask
  match getIpInt32FromString inet host with
  | none => throw .invalidHost
  | some ip => pure ⟨ip, UInt8.ofNat mask⟩

theorem toNat_word (q : Quad) : q.word.toNat = ofLittleEndian q.octets := by
  have hlen : q.octets.length = 4 := rfl
  have hlt := ofLittleEndian_lt q.octets
  rw [hlen] at hlt
  exact UInt32.toNat_ofNat_of_lt' hlt

theorem testBit_word (q : Quad) (i : ℕ) :
    q.word.toNat.testBit i = (q.octets.getD (i / 8) 0).toNat.testBit (i % 8) := by
  rw [toNat_word, testBit_ofLittleEndian]

theorem testBit_hostMask {s : Ipv4NetworkSubnet} (hm : s.mask.toNat ≤ 32) (ip : UInt32) (i : ℕ) :
    (ip.toUInt64 &&& s.hostMask).toNat.testBit i = (ip.toNat.testBit i && decide (i < s.mask.toNat)) := by
  have hshift : s.mask.toUInt64.toNat % 64 = s.mask.toNat := by
    rw [UInt8.toNat_toUInt64]
    omega
  rw [UInt64.toNat_and, Nat.testBit_and, UInt32.toNat_toUInt64]
  by_cases hi : 32 ≤ i
  · have hip : ip.toNat.testBit i = false :=
      Nat.testBit_lt_two_pow (lt_of_lt_of_le ip.toNat_lt (Nat.pow_le_pow_right (by decide) hi))
    simp [hip]
  · have hnot : s.hostMask.toNat.testBit i =
        !((0xffffffff : UInt64) <<< s.mask.toUInt64).toNat.testBit i := by
      rw [Ipv4NetworkSubnet.hostMask, ← UInt64.toNat_toBitVec, ← UInt64.toNat_toBitVec,
        BitVec.testBit_toNat, BitVec.testBit_toNat, UInt64.toBitVec_not, BitVec.getLsbD_not]
      simp only [show i < 64 by omega, decide_true, Bool.true_and]
    have hones : (0xffffffff : UInt64).toNat = 2 ^ 32 - 1 := rfl
    rw [hnot, UInt64.toNat_shiftLeft, hshift, Nat.testBit_mod_two_pow, Nat.testBit_shiftLeft, hones,
      Nat.testBit_two_pow_sub_one]
    congr 1
    by_cases h : i < s.mask.toNat
    · simp [h]
    · simp only [h, decide_false, Bool.not_eq_false', Bool.and_eq_true, decide_eq_true_eq]
      omega

theorem toUInt64_subnet (s : Ipv4NetworkSubnet) : s.subnet.toUInt64 = s.ip.toUInt64 &&& s.hostMask := by
  have hle : (s.ip.toUInt64 &&& s.hostMask).toNat ≤ s.ip.toNat := by
    rw [UInt64.toNat_and, UInt32.toNat_toUInt64]
    exact Nat.and_le_left
  have hlt := s.ip.toNat_lt
  apply UInt64.toNat_inj.mp
  rw [Ipv4NetworkSubnet.subnet, UInt32.toNat_toUInt64, UInt64.toNat_toUInt32]
  exact Nat.mod_eq_of_lt (by omega)

theorem matches_iff {s : Ipv4NetworkSubnet} (hm : s.mask.toNat ≤ 32) (address : Ipv4NetworkAddress) :
    s.matches address = true ↔
      ∀ i < s.mask.toNat, address.ip.toNat.testBit i = s.ip.toNat.testBit i := by
  rw [Ipv4NetworkSubnet.matches, toUInt64_subnet, beq_iff_eq, ← UInt64.toNat_inj]
  constructor
  · intro h i hi
    have hbit : (address.ip.toUInt64 &&& s.hostMask).toNat.testBit i =
      (s.ip.toUInt64 &&& s.hostMask).toNat.testBit i := by rw [h]
    rw [testBit_hostMask hm, testBit_hostMask hm] at hbit
    simpa only [hi, decide_true, Bool.and_true] using hbit
  · intro h
    refine Nat.eq_of_testBit_eq fun i => ?_
    rw [testBit_hostMask hm, testBit_hostMask hm]
    by_cases hi : i < s.mask.toNat
    · rw [h i hi]
    · simp [hi]

def mirror (i : ℕ) : ℕ := 8 * (i / 8) + (7 - i % 8)

theorem cidrBit_eq (q : Quad) (i : ℕ) : q.cidrBit i = q.word.toNat.testBit (mirror i) := by
  have hd : mirror i / 8 = i / 8 := by rw [mirror]; omega
  have hr : mirror i % 8 = 7 - i % 8 := by rw [mirror]; omega
  rw [testBit_word, hd, hr, Quad.cidrBit]

theorem forall_mirror {m : ℕ} (h : 8 ∣ m) (P : ℕ → Prop) : (∀ i < m, P (mirror i)) ↔ ∀ i < m, P i := by
  have hlt : ∀ i < m, mirror i < m := fun i hi => by rw [mirror]; omega
  have hinv : ∀ i, mirror (mirror i) = i := fun i => by simp only [mirror]; omega
  constructor
  · intro hP i hi
    have := hP (mirror i) (hlt i hi)
    rwa [hinv] at this
  · exact fun hP i hi => hP _ (hlt i hi)

theorem exists_flip (q : Quad) {k : ℕ} (hk : k < 4) :
    ∃ x : Quad, ∀ i, x.word.toNat.testBit i = (q.word.toNat.testBit i ^^ decide (i = 8 * k)) := by
  have hxor : ∀ (o : UInt8) (j : ℕ), (o ^^^ 1).toNat.testBit j = (o.toNat.testBit j ^^ decide (j = 0)) := by
    intro o j
    rw [UInt8.toNat_xor, Nat.testBit_xor]
    congr 1
    cases j <;> simp [Nat.testBit_succ]
  obtain ⟨x, hx⟩ : ∃ x : Quad, x.octets = q.octets.modify k (· ^^^ 1) := by
    interval_cases k
    exacts [⟨{ q with a := q.a ^^^ 1 }, rfl⟩, ⟨{ q with b := q.b ^^^ 1 }, rfl⟩,
      ⟨{ q with c := q.c ^^^ 1 }, rfl⟩, ⟨{ q with d := q.d ^^^ 1 }, rfl⟩]
  refine ⟨x, fun i => ?_⟩
  rw [testBit_word, testBit_word, hx, List.getD_eq_getElem?_getD, List.getD_eq_getElem?_getD,
    List.getElem?_modify]
  cases ho : q.octets[i / 8]? with
  | none =>
    have hge : 4 ≤ i / 8 := List.getElem?_eq_none_iff.mp ho
    simp [show i ≠ 8 * k by omega]
  | some o =>
    by_cases hi : k = i / 8
    · have hzero : (i % 8 = 0) = (i = 8 * k) := by rw [eq_iff_iff]; omega
      simp only [if_pos hi, Option.map_eq_map, Option.map_some, Option.getD_some, hxor, hzero]
    · simp [hi, show i ≠ 8 * k by omega]

theorem not_mem_decimal {n : ℕ} {b : UInt8} (hb : isDigit b = false) : b ∉ decimal n := by
  intro h
  rw [isDigit_of_mem_decimal h] at hb
  exact Bool.false_ne_true hb.symm

theorem slash_notMem_text (q : Quad) : (0x2f : UInt8) ∉ q.text := by
  have hdec : ∀ n, (0x2f : UInt8) ∉ decimal n := fun n => not_mem_decimal rfl
  have hdot : (0x2f : UInt8) ∉ ascii "." := by decide
  simp only [Quad.text, Quad.octets, List.map_cons, List.map_nil, List.intercalate, List.intersperse,
    List.flatten_cons, List.flatten_nil, List.mem_append, List.append_nil]
  simp [hdec, hdot]

theorem getIpv4SubnetAddress_text (inet : InetAddr) (q : Quad) {m : ℕ} (hm : m ≤ 32)
    (allowImplicit32 : Bool) :
    getIpv4SubnetAddress inet (q.text ++ ascii "/" ++ decimal m) allowImplicit32 =
      if q.word = inaddrNone then .error .invalidHost else .ok ⟨q.word, UInt8.ofNat m⟩ := by
  have hne : ∀ b ∈ q.text, decide (b ≠ (0x2f : UInt8)) = true := fun b hb =>
    decide_eq_true fun h => slash_notMem_text q (h ▸ hb)
  have hslash : ascii "/" ++ decimal m = 0x2f :: decimal m := rfl
  have htake : (q.text ++ ascii "/" ++ decimal m).takeWhile (· ≠ (0x2f : UInt8)) = q.text := by
    rw [List.append_assoc, hslash, List.takeWhile_append_of_pos hne]
    simp
  have hdrop : (q.text ++ ascii "/" ++ decimal m).dropWhile (· ≠ (0x2f : UInt8)) = 0x2f :: decimal m := by
    rw [List.append_assoc, hslash, List.dropWhile_append_of_pos hne]
    simp
  have hmask := getXtypeFromString_decimal (by omega : m < 2 ^ 32)
  simp only [getIpv4SubnetAddress, htake, hdrop, hmask, if_neg (not_lt.mpr hm), getIpInt32FromString,
    inet.run_text]
  split_ifs <;> rfl

theorem word_eq_inaddrNone (q : Quad) : q.word = inaddrNone ↔ q = ⟨255, 255, 255, 255⟩ := by
  constructor
  · intro h
    have hn : ofLittleEndian q.octets = 0xffffffff := by rw [← toNat_word, h]; rfl
    have ha := q.a.toNat_lt
    have hb := q.b.toNat_lt
    have hc := q.c.toNat_lt
    have hd := q.d.toNat_lt
    simp only [Quad.octets, ofLittleEndian] at hn
    obtain ⟨a, b, c, d⟩ := q
    simp only at *
    congr 1 <;> apply UInt8.toNat_inj.mp <;> simp <;> omega
  · rintro rfl
    decide

theorem cidr_iff_of_dvd {m : ℕ} (h : 8 ∣ m) (q x : Quad) :
    (∀ i < m, x.word.toNat.testBit i = q.word.toNat.testBit i) ↔ ∀ i < m, q.cidrBit i = x.cidrBit i := by
  simp only [cidrBit_eq]
  rw [forall_mirror h fun i => q.word.toNat.testBit i = x.word.toNat.testBit i]
  exact forall₂_congr fun _ _ => eq_comm

theorem exists_cidr_mismatch {m : ℕ} (hm : m ≤ 32) (h : ¬ 8 ∣ m) (q : Quad) :
    ∃ x : Quad, (∀ i < m, q.cidrBit i = x.cidrBit i) ∧
      ¬ ∀ i < m, x.word.toNat.testBit i = q.word.toNat.testBit i := by
  obtain ⟨x, hx⟩ := exists_flip q (by omega : m / 8 < 4)
  refine ⟨x, fun i hi => ?_, fun hall => ?_⟩
  · rw [cidrBit_eq, cidrBit_eq, hx, show decide (mirror i = 8 * (m / 8)) = false from
      decide_eq_false (by rw [mirror]; omega), Bool.xor_false]
  · have hbit := hall (8 * (m / 8)) (by omega)
    rw [hx] at hbit
    simp at hbit

theorem subnet_matches_iff_cidr (inet : InetAddr) (q : Quad) (m : ℕ) (hm : m ≤ 32)
    (allowImplicit32 : Bool) :
    (∃ s, getIpv4SubnetAddress inet (q.text ++ ascii "/" ++ decimal m) allowImplicit32 = .ok s ∧
      ∀ (x : Quad) (port : UInt16),
        s.matches ⟨x.word, port⟩ = true ↔ ∀ i < m, q.cidrBit i = x.cidrBit i) ↔
    8 ∣ m ∧ q ≠ ⟨255, 255, 255, 255⟩ := by
  have hmask : (UInt8.ofNat m).toNat = m := toNat_ofNat (by omega)
  have hmatch : ∀ (x : Quad) (port : UInt16),
      (⟨q.word, UInt8.ofNat m⟩ : Ipv4NetworkSubnet).matches ⟨x.word, port⟩ = true ↔
        ∀ i < m, x.word.toNat.testBit i = q.word.toNat.testBit i := by
    intro x port
    rw [matches_iff (by simpa only [hmask] using hm)]
    simp only [hmask]
  rw [getIpv4SubnetAddress_text inet q hm, ne_eq, ← word_eq_inaddrNone]
  by_cases hnone : q.word = inaddrNone
  · simp [hnone]
  · simp only [if_neg hnone, Except.ok.injEq, exists_eq_left', hmatch]
    constructor
    · intro hall
      refine ⟨?_, hnone⟩
      by_contra hdvd
      obtain ⟨x, hcidr, hword⟩ := exists_cidr_mismatch hm hdvd q
      exact hword ((hall x 0).mpr hcidr)
    · rintro ⟨hdvd, -⟩ x -
      exact cidr_iff_of_dvd hdvd q x

def quadsOnly (s : Bytes) : UInt32 :=
  match (s.splitOn 0x2e).map (getXtypeFromString 8) with
  | [some a, some b, some c, some d] =>
    Quad.word ⟨UInt8.ofNat a, UInt8.ofNat b, UInt8.ofNat c, UInt8.ofNat d⟩
  | _ => inaddrNone

def InetAddr.quads : InetAddr where
  run := quadsOnly
  run_text q := by
    have hdot : ∀ l ∈ q.octets.map fun o => decimal o.toNat, (0x2e : UInt8) ∉ l := by
      intro l hl
      obtain ⟨o, -, rfl⟩ := List.mem_map.mp hl
      exact not_mem_decimal rfl
    have hsplit : q.text.splitOn 0x2e = q.octets.map fun o => decimal o.toNat :=
      List.splitOn_intercalate 0x2e hdot (by simp [Quad.octets])
    have hget : ∀ o : UInt8, getXtypeFromString 8 (decimal o.toNat) = some o.toNat :=
      fun o => getXtypeFromString_decimal o.toNat_lt
    simp only [quadsOnly, hsplit, Quad.octets, List.map_cons, List.map_nil, hget, UInt8.ofNat_toNat]

theorem subnet_matches_iff_cidr_ten :
    ∃ s, getIpv4SubnetAddress InetAddr.quads (Quad.text ⟨10, 0, 0, 0⟩ ++ ascii "/" ++ decimal 8) false =
        .ok s ∧
      ∀ (x : Quad) (port : UInt16),
        s.matches ⟨x.word, port⟩ = true ↔ ∀ i < 8, Quad.cidrBit ⟨10, 0, 0, 0⟩ i = x.cidrBit i :=
  (subnet_matches_iff_cidr InetAddr.quads ⟨10, 0, 0, 0⟩ 8 (by decide) false).mpr ⟨by decide, by decide⟩

theorem subnet_nine_bits :
    getIpv4SubnetAddress InetAddr.quads (ascii "10.0.0.0/9") false = .ok ⟨Quad.word ⟨10, 0, 0, 0⟩, 9⟩ ∧
      Ipv4NetworkSubnet.matches ⟨Quad.word ⟨10, 0, 0, 0⟩, 9⟩ ⟨Quad.word ⟨10, 128, 0, 0⟩, 0⟩ = true ∧
      Quad.cidrBit ⟨10, 0, 0, 0⟩ 8 ≠ Quad.cidrBit ⟨10, 128, 0, 0⟩ 8 ∧
      Ipv4NetworkSubnet.matches ⟨Quad.word ⟨10, 0, 0, 0⟩, 9⟩ ⟨Quad.word ⟨10, 1, 0, 0⟩, 0⟩ = false ∧
      ∀ i < 9, Quad.cidrBit ⟨10, 0, 0, 0⟩ i = Quad.cidrBit ⟨10, 1, 0, 0⟩ i := by
  have htext : ascii "10.0.0.0/9" = Quad.text ⟨10, 0, 0, 0⟩ ++ ascii "/" ++ decimal 9 := by decide
  refine ⟨?_, by decide, by decide, by decide, by decide⟩
  rw [htext, getIpv4SubnetAddress_text _ _ (by decide)]
  decide

end Velkavo.Net
