import Velkavo.Core.Difficulty
import Velkavo.Core.ProofOfWork

/-! A steady chain of blocks with numbered hashes. -/

namespace Velkavo.Core

open Cryptonote HashChain ByteCodec

section

def numbered (i : ℕ) : Hash := ⟨littleEndian 32 i, length_hashBytes i⟩

theorem numbered_inj {i j : ℕ} (hi : i < 256 ^ 32) (hj : j < 256 ^ 32) (h : numbered i = numbered j) : i = j := by
  have hbytes := congrArg (fun x => ofLittleEndian x.bytes) h
  change ofLittleEndian (littleEndian 32 i) = ofLittleEndian (littleEndian 32 j) at hbytes
  rwa [ofLittleEndian_littleEndian 32 i hi, ofLittleEndian_littleEndian 32 j hj] at hbytes

def nonceHashes : HashFunctions where
  cnFastHash bytes := numbered (ofLittleEndian ((bytes.drop (bytes.length - 37)).take 4) + 1)
  treeHash _ := nullHash
  getTransactionHash _ := nullHash
  rxSlowHash _ _ := nullHash
  cnSlowHash _ _ _ := nullHash

def steadyBlock (i : ℕ) : Block :=
  ⟨⟨if i < 32000 then 1 else 2, if i < 32000 then 1 else 2, UInt64.ofNat (60 * i), numbered i, UInt32.ofNat i⟩,
    ⟨⟨2, 0, [.gen (UInt64.ofNat i)], [], []⟩, [], default, false⟩, []⟩

theorem toNat_ofNat_of_le {i : ℕ} (hi : i ≤ 60 * 32000) : (UInt64.ofNat i).toNat = i :=
  UInt64.toNat_ofNat_of_lt' (hi.trans_lt (by decide))

theorem byteString_getBlockHashingBlob (c : HashFunctions) (b : Block) :
    ∃ before, Codec.byteString.write (getBlockHashingBlob c b) =
      before ++ (littleEndian 4 b.nonce.toNat ++ ((getTxTreeHash c b).bytes ++ writeVarint (b.txHashes.length + 1))) := by
  have hheader : ∃ before, blockHeader.write b.toBlockHeader = before ++ littleEndian 4 b.nonce.toNat := by
    refine ⟨Codec.varint8.write b.majorVersion ++ (Codec.varint8.write b.minorVersion ++
      (Codec.varint64.write b.timestamp ++ b.prevId.bytes)), ?_⟩
    rw [List.append_assoc, List.append_assoc, List.append_assoc]
    rfl
  obtain ⟨before, hheader⟩ := hheader
  refine ⟨writeVarint (getBlockHashingBlob c b).length ++ before, ?_⟩
  rw [Codec.write_byteString, getBlockHashingBlob, hheader, List.append_assoc, List.append_assoc]

theorem getBlockHash_steadyBlock {i : ℕ} (hi : i ≤ 32000) : getBlockHash nonceHashes (steadyBlock i) = numbered (i + 1) := by
  have hheight : isHeight202612 (steadyBlock i) = false := by
    change decide (UInt64.ofNat i = 202612) = false
    rw [decide_eq_false_iff_not]
    intro h
    have hnat := congrArg UInt64.toNat h
    rw [toNat_ofNat_of_le (hi.trans (by decide))] at hnat
    change i = 202612 at hnat
    omega
  obtain ⟨before, hbytes⟩ := byteString_getBlockHashingBlob nonceHashes (steadyBlock i)
  have hnonce : (steadyBlock i).nonce.toNat = i := UInt32.toNat_ofNat_of_lt' (hi.trans_lt (by decide))
  have htail : (littleEndian 4 i ++ ((getTxTreeHash nonceHashes (steadyBlock i)).bytes ++
      writeVarint ((steadyBlock i).txHashes.length + 1))).length = 37 := by
    rw [List.length_append, littleEndian_length]
    rfl
  rw [hnonce] at hbytes
  rw [getBlockHash, calculateBlockHash, hheight, hbytes]
  change numbered (ofLittleEndian _ + 1) = _
  rw [List.length_append, htail, Nat.add_sub_cancel, List.drop_left, List.take_left' (littleEndian_length 4 i),
    ofLittleEndian_littleEndian 4 i (hi.trans_lt (by decide))]

def steadyNetwork : Network where
  toHashFunctions := nonceHashes
  genesis := steadyBlock 0
  blocks := { b | ∃ i ≤ 32000, b = steadyBlock i }
  genesis_mem := ⟨0, Nat.zero_le _, rfl⟩
  prevId_genesis := by decide
  blob_eq := by
    rintro _ ⟨i, hi, rfl⟩ _ ⟨j, hj, rfl⟩ h
    rw [getBlockHash_steadyBlock hi, getBlockHash_steadyBlock hj] at h
    have hsame := numbered_inj (by omega) (by omega) h
    rw [Nat.succ_injective hsame]
  ne_null := by
    rintro _ ⟨i, hi, rfl⟩ h
    rw [getBlockHash_steadyBlock hi] at h
    have hsame := numbered_inj (by omega) (by decide) (h.trans (by decide : nullHash = numbered 0))
    omega

def steadyBlocks (m : ℕ) : List Block := (List.range m).map steadyBlock

theorem steadyBlocks_succ (m : ℕ) : steadyBlocks (m + 1) = steadyBlocks m ++ [steadyBlock m] := by
  rw [steadyBlocks, List.range_succ, List.map_append]
  rfl

theorem branch_steadyBlocks {m : ℕ} (hm : m ≤ 32000) : steadyNetwork.Branch (steadyBlocks (m + 1)) := by
  induction m with
  | zero => exact Branch.single steadyNetwork.genesis_mem
  | succ m ih =>
    rw [steadyBlocks_succ]
    refine (ih (by omega)).concat ?_ ⟨m + 1, hm, rfl⟩
    rw [steadyBlocks_succ, tip_concat, Option.some_inj]
    exact getBlockHash_steadyBlock (by omega)

end

end Velkavo.Core
