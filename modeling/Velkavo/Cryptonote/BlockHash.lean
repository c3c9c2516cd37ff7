import Velkavo.ByteCodec.Text
import Velkavo.Cryptonote.Serialization

namespace Velkavo.Cryptonote

open ByteCodec ByteCodec.Codec

structure HashFunctions where
  cnFastHash : Bytes → Hash
  treeHash : List Hash → Hash
  getTransactionHash : Transaction → Hash
  rxSlowHash : Hash → Bytes → Hash
  cnSlowHash : Bytes → ℕ → ℕ → Hash

variable (c : HashFunctions)

def hexToHash (s : String) : Hash := (Blob.ofHex? 32 (ascii s)).getD nullHash

def getTxTreeHash (b : Block) : Hash := c.treeHash (c.getTransactionHash b.minerTx :: b.txHashes)

def getBlockHashingBlob (b : Block) : Bytes :=
  blockHeader.write b.toBlockHeader ++ ((getTxTreeHash c b).bytes ++ writeVarint (b.txHashes.length + 1))

def correctBlobHash202612 : Hash :=
  hexToHash "3a8a2b3a29b50fc86ff73dd087ea43c6f0d6b8f936c849194d5c84c737903966"

def existingBlockId202612 : Hash :=
  hexToHash "bbd604d2ba11ba27935e006ed39c9bfdd99b76bf4a50654bc1e1e61217962698"

def isHeight202612 (b : Block) : Bool :=
  match b.minerTx.vin with
  | [.gen height] => height = 202612
  | _ => true

def calculateBlockHash (b : Block) : Bool × Hash :=
  -- the hashing blob is hashed as a string, with its length in front
  let res := c.cnFastHash (byteString.write (getBlockHashingBlob c b))
  if !isHeight202612 b then (true, res)
  else if c.cnFastHash ((block b.minerTx.pruned).write b) = correctBlobHash202612 then
    (true, existingBlockId202612)
  else if res = existingBlockId202612 then (false, nullHash)
  else (true, res)

def getBlockHash (b : Block) : Hash := (calculateBlockHash c b).2

def getBlockHeight (b : Block) : UInt64 :=
  match b.minerTx.vin with
  | [.gen height] => height
  | _ => 0

def rxBlockVersion : UInt8 := 12

def hfVersionCryptonightVariant1 : UInt8 := 7

def seedhashEpochBlocks : ℕ := 2048

def seedhashEpochLag : ℕ := 64

def rxSeedheight (height : ℕ) : ℕ :=
  if height ≤ seedhashEpochBlocks + seedhashEpochLag then 0
  else (height - seedhashEpochLag - 1) &&& (2 ^ 64 - seedhashEpochBlocks)

def longhash202612 : Hash :=
  hexToHash "84f64766475d51837ac9efbef1926486e58563c95a19fef4aec3254f03000000"

def powVariant (majorVersion : UInt8) : ℕ :=
  if majorVersion ≥ hfVersionCryptonightVariant1 then
    majorVersion.toNat - (hfVersionCryptonightVariant1.toNat - 1)
  else 0

def getBlockLonghash (blob : Bytes) (height : ℕ) (majorVersion : UInt8) (seedHash : Hash) : Hash :=
  if height = 202612 then longhash202612
  else if majorVersion ≥ rxBlockVersion then c.rxSlowHash seedHash blob
  else c.cnSlowHash blob (powVariant majorVersion) height

def getAltblockLonghash (b : Block) (seedHash : Hash) : Hash :=
  c.rxSlowHash seedHash (getBlockHashingBlob c b)

def slowHash (ancestors : List Hash) (b : Block) : Hash :=
  if b.majorVersion ≥ rxBlockVersion then
    c.rxSlowHash (ancestors[rxSeedheight ancestors.length]?.getD nullHash) (getBlockHashingBlob c b)
  else c.cnSlowHash (getBlockHashingBlob c b) (powVariant b.majorVersion) ancestors.length

variable {c}

theorem read_getBlockHashingBlob (b : Block) :
    blockHeader.read .reject (getBlockHashingBlob c b) =
      some (b.toBlockHeader, (getTxTreeHash c b).bytes ++ writeVarint (b.txHashes.length + 1)) := by
  have hvalid : blockHeader.valid b.toBlockHeader = true := by
    simp [blockHeader, valid_varint8, valid_varint64, valid_view, valid_seq, valid_blob]
    rfl
  rw [getBlockHashingBlob, blockHeader.read_write .reject b.toBlockHeader _ hvalid, Exact.kept_eq]

theorem toBlockHeader_eq {a b : Block} (h : getBlockHashingBlob c a = getBlockHashingBlob c b) :
    a.toBlockHeader = b.toBlockHeader := by
  have ha := read_getBlockHashingBlob (c := c) a
  rw [h, read_getBlockHashingBlob, Option.some_inj, Prod.mk.injEq] at ha
  exact ha.1.symm

theorem rxSeedheight_lt {height : ℕ} (h : 0 < height) : rxSeedheight height < height := by
  rw [rxSeedheight]
  split_ifs
  · exact h
  · apply lt_of_le_of_lt Nat.and_le_left
    omega

theorem rxSeedheight_eq_zero_or (height : ℕ) : rxSeedheight height = 0 ∨ rxSeedheight height + 1 < height := by
  rw [rxSeedheight]
  split_ifs with hlow
  · exact .inl rfl
  · have hle : (height - seedhashEpochLag - 1) &&& (2 ^ 64 - seedhashEpochBlocks) ≤
        height - seedhashEpochLag - 1 := Nat.and_le_left
    rw [seedhashEpochBlocks, seedhashEpochLag] at hlow hle
    exact .inr (by rw [seedhashEpochBlocks, seedhashEpochLag]; omega)

theorem getBlockLonghash_eq_slowHash {ancestors : List Hash} {b : Block} {seedHash : Hash}
    (hne : ancestors.length ≠ 202612)
    (hseed : b.majorVersion ≥ rxBlockVersion → ancestors[rxSeedheight ancestors.length]? = some seedHash) :
    getBlockLonghash c (getBlockHashingBlob c b) ancestors.length b.majorVersion seedHash =
      slowHash c ancestors b := by
  rw [getBlockLonghash, if_neg hne, slowHash]
  split_ifs with hrx
  · rw [hseed hrx, Option.getD_some]
  · rfl

theorem getAltblockLonghash_eq_slowHash {ancestors : List Hash} {b : Block} {seedHash : Hash}
    (hrx : b.majorVersion ≥ rxBlockVersion)
    (hseed : ancestors[rxSeedheight ancestors.length]? = some seedHash) :
    getAltblockLonghash c b seedHash = slowHash c ancestors b := by
  rw [getAltblockLonghash, slowHash, if_pos hrx, hseed, Option.getD_some]

end Velkavo.Cryptonote
