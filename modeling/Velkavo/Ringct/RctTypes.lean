import Velkavo.ByteCodec.Sequences

namespace Velkavo.Rct

open ByteCodec

abbrev Key := Blob 32

abbrev Key64 := Blob (64 * 32)

inductive RctType
  | null
  | full
  | simple
  | bulletproof
  | bulletproof2
  | clsag
  | bulletproofPlus
  deriving DecidableEq, Repr

namespace RctType

def toByte : RctType → UInt8
  | null => 0
  | full => 1
  | simple => 2
  | bulletproof => 3
  | bulletproof2 => 4
  | clsag => 5
  | bulletproofPlus => 6

def ofByte (b : UInt8) : Option RctType :=
  [null, full, simple, bulletproof, bulletproof2, clsag, bulletproofPlus].find? (·.toByte = b)

theorem toByte_of_ofByte {b : UInt8} {t : RctType} (h : ofByte b = some t) : t.toByte = b := by
  simpa using List.find?_some h

def shortEcdh : RctType → Bool
  | bulletproof2 | clsag | bulletproofPlus => true
  | _ => false

def isBulletproof : RctType → Bool
  | bulletproof | bulletproof2 | clsag => true
  | _ => false

def isBulletproofPlus : RctType → Bool
  | bulletproofPlus => true
  | _ => false

def mgPerInput : RctType → Bool
  | simple | bulletproof | bulletproof2 => true
  | _ => false

def isClsag : RctType → Bool
  | clsag | bulletproofPlus => true
  | _ => false

end RctType

structure CtKey where
  dest : Key
  mask : Key
  deriving DecidableEq, Repr

structure EcdhTuple where
  mask : Key
  amount : Key
  deriving DecidableEq, Repr

structure BoroSig where
  s0 : Key64
  s1 : Key64
  ee : Key
  deriving DecidableEq, Repr

structure RangeSig where
  asig : BoroSig
  Ci : Key64
  deriving DecidableEq, Repr

structure MgSig where
  ss : List (List Key)
  cc : Key
  deriving DecidableEq, Repr

structure Clsag where
  s : List Key
  c1 : Key
  D : Key
  deriving DecidableEq, Repr

structure Bulletproof where
  V : List Key
  A : Key
  S : Key
  T1 : Key
  T2 : Key
  taux : Key
  mu : Key
  L : List Key
  R : List Key
  a : Key
  b : Key
  t : Key
  deriving DecidableEq, Repr

structure BulletproofPlus where
  V : List Key
  A : Key
  A1 : Key
  B : Key
  r1 : Key
  s1 : Key
  d1 : Key
  L : List Key
  R : List Key
  deriving DecidableEq, Repr

structure RctSigBase where
  type : RctType
  pseudoOuts : List Key
  ecdhInfo : List EcdhTuple
  outPk : List CtKey
  txnFee : UInt64
  deriving DecidableEq, Repr

structure RctSigPrunable where
  rangeSigs : List RangeSig
  bulletproofs : List Bulletproof
  bulletproofsPlus : List BulletproofPlus
  MGs : List MgSig
  CLSAGs : List Clsag
  pseudoOuts : List Key
  deriving DecidableEq, Repr

structure RctSig extends RctSigBase where
  p : RctSigPrunable
  deriving DecidableEq, Repr

instance : Inhabited RctSigBase := ⟨⟨.null, [], [], [], 0⟩⟩

instance : Inhabited RctSigPrunable := ⟨⟨[], [], [], [], [], []⟩⟩

instance : Inhabited RctSig := ⟨⟨default, default⟩⟩

def bulletproofMaxOutputs : ℕ := 16

def bulletproofPlusMaxOutputs : ℕ := 16

def nBulletproofMaxAmountsBase (lSize rSize maxOutputs : ℕ) : ℕ :=
  let extraBits := 4
  if lSize < 6 then 0
  else if lSize ≠ rSize then 0
  else if 1 <<< extraBits ≠ maxOutputs then 0
  else if lSize > 6 + extraBits then 0
  else 1 <<< (lSize - 6)

def sumAmounts : ℕ → List ℕ → ℕ
  | n, [] => n
  | n, n2 :: rest =>
    if ¬ n2 < 0xffffffff - n then 0
    else if n2 = 0 then 0
    else sumAmounts (n + n2) rest

def Bulletproof.maxAmounts (p : Bulletproof) : ℕ :=
  nBulletproofMaxAmountsBase p.L.length p.R.length bulletproofMaxOutputs

def BulletproofPlus.maxAmounts (p : BulletproofPlus) : ℕ :=
  nBulletproofMaxAmountsBase p.L.length p.R.length bulletproofPlusMaxOutputs

def nBulletproofMaxAmounts (proofs : List Bulletproof) : ℕ :=
  sumAmounts 0 (proofs.map Bulletproof.maxAmounts)

def nBulletproofPlusMaxAmounts (proofs : List BulletproofPlus) : ℕ :=
  sumAmounts 0 (proofs.map BulletproofPlus.maxAmounts)

end Velkavo.Rct
