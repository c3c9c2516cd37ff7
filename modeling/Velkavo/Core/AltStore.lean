import Velkavo.Core.ChainSwitch
import Velkavo.Core.Longhash202612
import Velkavo.Effects.Runs

namespace Velkavo.Core

open Cryptonote

variable {n : Network} {s t : Blockchain} {r : Rules} {altChain : List BlockExtendedInfo} {b : Block} {fork : ℕ}

def Blockchain.addNewBlocks (c : HashFunctions) (fuel : ℕ) (s : Blockchain) (calls : List (Rules × Block)) : Blockchain :=
  calls.foldl (fun s call => (s.addNewBlock c call.1 fuel call.2).chain) s

theorem Sound.addNewBlock (hs : Sound n s) (hb : b ∈ n.blocks) (fuel : ℕ) :
    Sound n (s.addNewBlock n.toHashFunctions r fuel b).chain :=
  .of_settles (hs.inv.addNewBlock hb (.inl hs.table)) hs.table

theorem Sound.addNewBlocks {fuel : ℕ} {calls : List (Rules × Block)} (hs : Sound n s)
    (hmem : ∀ call ∈ calls, call.2 ∈ n.blocks) : Sound n (s.addNewBlocks n.toHashFunctions fuel calls) := by
  induction calls generalizing s with
  | nil => exact hs
  | cons call rest ih =>
    obtain ⟨hb, hrest⟩ := List.forall_mem_cons.mp hmem
    exact ih (hs.addNewBlock hb fuel) hrest

theorem altSeedhash_on_branch (n : Network) (r : Rules) (s : Blockchain) (h : Inv n s) (b : Block) (hb : b ∈ n.blocks)
    (altChain : List BlockExtendedInfo) (hbuild : s.buildAltChain n.toHashFunctions b.prevId = some altChain) :
    ∃ branch seed, n.Below branch b ∧ (s.altExtendedInfo n.toHashFunctions r altChain b).height = branch.length ∧
      (branch.map n.id)[rxSeedheight branch.length]? = some seed ∧
      (b.majorVersion ≥ rxBlockVersion →
        s.altProofOfWork n.toHashFunctions altChain (s.altExtendedInfo n.toHashFunctions r altChain b) =
          getAltblockLonghash n.toHashFunctions b seed) ∧
      ∀ t, Inv n t → t.db.map DbBlock.bl = branch →
        t.getPendingBlockIdByHeight n.toHashFunctions (rxSeedheight t.db.length) = seed := by
  obtain ⟨fork, hfork⟩ := h.forked hbuild
  have hbelow := hfork.below hb rfl
  have hlen := hfork.length_eq
  have hheight : (s.altExtendedInfo n.toHashFunctions r altChain b).height =
      ((s.db.map DbBlock.bl).take fork ++ altChain.map BlockExtendedInfo.bl).length := hfork.parentOf_eq.trans hlen.symm
  have hseed := hfork.altSeedhash_eq (i := rxSeedheight (fork + altChain.length)) (by
    have hpos := hfork.pos
    rcases rxSeedheight_eq_zero_or (fork + altChain.length) with hzero | hlt
    · exact .inl (by omega)
    · exact .inr hlt)
  rw [← hlen] at hseed
  refine ⟨_, _, hbelow, hheight, hseed, fun hversion => ?_, fun t ht hdb => ?_⟩
  · have hinfo : (s.altExtendedInfo n.toHashFunctions r altChain b).bl.majorVersion ≥ rxBlockVersion := hversion
    rw [Blockchain.altProofOfWork, if_pos hinfo, hheight]
    rfl
  · have htlen : t.db.length = ((s.db.map DbBlock.bl).take fork ++ altChain.map BlockExtendedInfo.bl).length := by
      rw [← hdb, List.length_map]
    have hpending := ht.getPendingBlockIdByHeight (rxSeedheight_lt (htlen ▸ hbelow.length_pos))
    rw [Blockchain.ids_eq, hdb, htlen, hseed] at hpending
    rw [htlen]
    exact (Option.some.inj hpending).symm

section

open Longhash202612 ByteCodec

def above (height parent nonce : ℕ) : Block :=
  { blockAt height (pad (littleEndian 4 parent)) nonce with majorVersion := rxBlockVersion }

def forkBlocks : List Block :=
  [chainBlock 0, chainBlock 1, chainBlock 2, above 1 0 11, above 2 11 12, above 2 11 13, above 3 13 14, above 4 14 15,
    above 2 1 16]

theorem prevId_chainBlock_zero : (chainBlock 0).prevId = nullHash := rfl

def forks : Network where
  toHashFunctions := hashes
  genesis := chainBlock 0
  blocks := { b | b ∈ forkBlocks }
  genesis_mem := List.mem_cons_self
  prevId_genesis := prevId_chainBlock_zero
  blob_eq := by
    change ∀ a ∈ forkBlocks, ∀ b ∈ forkBlocks, getBlockHash hashes a = getBlockHash hashes b →
      getBlockHashingBlob hashes a = getBlockHashingBlob hashes b
    decide +kernel
  ne_null := by
    change ∀ b ∈ forkBlocks, getBlockHash hashes b ≠ nullHash
    decide +kernel

def switchingFork : List (Rules × Block) := [chainBlock 1, above 1 0 11, above 2 11 13].map (rules, ·)

theorem altSeedhash_on_branch_stored : ∃ altChain branch seed,
    ((Blockchain.start forks.genesis).addNewBlocks hashes 3 (switchingFork.take 2)).buildAltChain hashes
      (above 2 11 13).prevId = some altChain ∧ altChain ≠ [] ∧
    forks.Below branch (above 2 11 13) ∧ (branch.map forks.id)[rxSeedheight branch.length]? = some seed ∧
    ((Blockchain.start forks.genesis).addNewBlocks hashes 3 (switchingFork.take 2)).altProofOfWork hashes altChain
      (((Blockchain.start forks.genesis).addNewBlocks hashes 3 (switchingFork.take 2)).altExtendedInfo hashes rules altChain
        (above 2 11 13)) = getAltblockLonghash hashes (above 2 11 13) seed := by
  have hmem : ∀ call ∈ switchingFork, call.2 ∈ forks.blocks := by
    change ∀ call ∈ switchingFork, call.2 ∈ forkBlocks
    simp [switchingFork, forkBlocks]
  have hsound : Sound forks ((Blockchain.start forks.genesis).addNewBlocks hashes 3 (switchingFork.take 2)) :=
    (sound_start forks).addNewBlocks fun call hcall => hmem call (List.mem_of_mem_take hcall)
  have hbuild : (((Blockchain.start forks.genesis).addNewBlocks hashes 3 (switchingFork.take 2)).buildAltChain hashes
      (above 2 11 13).prevId).map List.length = some 1 := by
    decide +kernel
  obtain ⟨altChain, hchain, hlen⟩ := Option.map_eq_some_iff.mp hbuild
  obtain ⟨branch, seed, hbelow, -, hseed, hpow, -⟩ := altSeedhash_on_branch forks rules _ hsound.inv (above 2 11 13)
    (hmem (rules, above 2 11 13) (by simp [switchingFork])) altChain hchain
  exact ⟨altChain, branch, seed, hchain, List.ne_nil_of_length_pos (by omega), hbelow, hseed, hpow (by decide)⟩

end

end Velkavo.Core
