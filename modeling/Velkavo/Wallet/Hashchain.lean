import Velkavo.Cryptonote.Basic
import Mathlib.Data.List.Induction

/-! The chain of block hashes a wallet keeps, of which the oldest may be trimmed (wallet2.h, wallet2.cpp). -/

namespace Velkavo.Wallet

open Cryptonote

structure Hashchain where
  offset : ℕ
  genesis : Hash
  blockchain : List Hash
  deriving DecidableEq

namespace Hashchain

def size (c : Hashchain) : ℕ := c.blockchain.length + c.offset

def pushBack (c : Hashchain) (hash : Hash) : Hashchain where
  offset := c.offset
  genesis := if c.offset = 0 ∧ c.blockchain = [] then hash else c.genesis
  blockchain := c.blockchain ++ [hash]

def get (c : Hashchain) (idx : ℕ) : Hash := c.blockchain.getD (idx - c.offset) nullHash

def clear (c : Hashchain) : Hashchain := { c with offset := 0, blockchain := [] }

def isEmpty (c : Hashchain) : Bool := c.blockchain.isEmpty && c.offset = 0

def trimLoop (height : ℕ) : ℕ → List Hash → ℕ × List Hash
  | offset, a :: b :: rest => if height > offset then trimLoop height (offset + 1) (b :: rest) else (offset, a :: b :: rest)
  | offset, l => (offset, l)

def trim (c : Hashchain) (height : ℕ) : Hashchain :=
  let trimmed := trimLoop height c.offset c.blockchain
  { c with offset := trimmed.1, blockchain := trimmed.2 }

structure Of (networkGenesis : Hash) extends Hashchain where
  known : genesis = networkGenesis
  first : offset = 0 → ∃ rest, blockchain = networkGenesis :: rest

end Hashchain

def exportBlockchain (c : Hashchain) : ℕ × Hash × List Hash :=
  (c.offset, if c.isEmpty then nullHash else c.genesis,
    (List.range' c.offset (c.size - c.offset)).map c.get)

def checkGenesis (c : Hashchain) (genesisHash : Hash) : Except String Unit :=
  if genesisHash ≠ c.genesis then
    .error "Genesis block mismatch. You probably use wallet without testnet (or stagenet) flag with blockchain from test (or stage) network or vice versa"
  else .ok ()

def importBlockchain (networkGenesis : Hash) (c : Hashchain) (bc : ℕ × Hash × List Hash) : Except String Hashchain := do
  let c := c.clear
  let c := if bc.1 ≠ 0 then ((List.replicate bc.1 bc.2.1).foldl Hashchain.pushBack c).trim bc.1 else c
  let c := bc.2.2.foldl Hashchain.pushBack c
  checkGenesis c networkGenesis
  pure c

structure Restores (c c' : Hashchain) : Prop where
  offset : c'.offset = c.offset
  size : c'.size = c.size
  genesis : c'.genesis = c.genesis
  hashes : ∀ idx, c.offset ≤ idx → idx < c.size → c'.get idx = c.get idx

namespace Hashchain

theorem foldl_pushBack (c : Hashchain) (l : List Hash) :
    l.foldl pushBack c = ⟨c.offset, if c.offset = 0 ∧ c.blockchain = [] then l.head?.getD c.genesis else c.genesis,
      c.blockchain ++ l⟩ := by
  induction l using List.reverseRecOn generalizing c with
  | nil =>
    rw [List.foldl_nil, List.append_nil, List.head?_nil, Option.getD_none, ite_self]
  | append_singleton l hash ih =>
    rw [List.foldl_append, ih, List.foldl_cons, List.foldl_nil, pushBack]
    cases l with
    | nil => simp
    | cons a l => simp

theorem trimLoop_replicate (n offset : ℕ) (hash : Hash) :
    trimLoop (offset + n + 1) offset (List.replicate (n + 1) hash) = (offset + n, [hash]) := by
  induction n generalizing offset with
  | zero => rfl
  | succ n ih =>
    rw [List.replicate_succ, List.replicate_succ, trimLoop, if_pos (by omega), ← List.replicate_succ]
    have hnext := ih (offset + 1)
    rwa [Nat.add_right_comm offset 1 n] at hnext

theorem map_get (c : Hashchain) : (List.range' c.offset (c.size - c.offset)).map c.get = c.blockchain := by
  have hlen : c.size - c.offset = c.blockchain.length := Nat.add_sub_cancel ..
  apply List.ext_getElem
  · rw [List.length_map, List.length_range', hlen]
  · intro i hi _
    rw [List.getElem_map, List.getElem_range', Nat.one_mul, get, Nat.add_sub_cancel_left, List.getD_eq_getElem]

theorem exportBlockchain_of {networkGenesis : Hash} (c : Of networkGenesis) :
    exportBlockchain c.toHashchain = (c.offset, networkGenesis, c.blockchain) := by
  have hne : c.isEmpty = false := by
    by_cases hzero : c.offset = 0
    · obtain ⟨rest, hrest⟩ := c.first hzero
      simp [isEmpty, hrest]
    · simp [isEmpty, hzero]
  rw [exportBlockchain, map_get, hne, if_neg Bool.false_ne_true, c.known]

theorem trim_replicate (c : Hashchain) (n : ℕ) (hash : Hash) :
    ((List.replicate (n + 1) hash).foldl pushBack c.clear).trim (n + 1) = ⟨n, hash, [hash]⟩ := by
  have htrim := trimLoop_replicate n 0 hash
  rw [Nat.zero_add] at htrim
  rw [foldl_pushBack, trim]
  simp only [clear, and_self, if_true, List.nil_append, htrim]
  rfl

theorem import_export {networkGenesis : Hash} (c : Of networkGenesis) (w : Hashchain) :
    importBlockchain networkGenesis w (exportBlockchain c.toHashchain) = .ok
      (if c.offset = 0 then c.toHashchain else ⟨c.offset - 1, networkGenesis, networkGenesis :: c.blockchain⟩) := by
  rw [exportBlockchain_of, importBlockchain]
  obtain ⟨⟨offset, genesis, blockchain⟩, rfl, hfirst⟩ := c
  cases offset with
  | zero =>
    obtain ⟨rest, hrest⟩ := hfirst rfl
    simp only at hrest
    subst hrest
    simp [foldl_pushBack, pushBack, clear, checkGenesis]
  | succ n =>
    simp only [ne_eq, Nat.succ_ne_zero, not_false_eq_true, if_true, if_false, trim_replicate]
    simp [foldl_pushBack, checkGenesis]

end Hashchain

theorem import_export_restores_iff {networkGenesis : Hash} (c : Hashchain.Of networkGenesis) (w : Hashchain) :
    (∃ c', importBlockchain networkGenesis w (exportBlockchain c.toHashchain) = .ok c' ∧ Restores c.toHashchain c') ↔
      c.offset = 0 := by
  rw [Hashchain.import_export]
  constructor
  · rintro ⟨c', hc', hrestores⟩
    by_contra hne
    rw [if_neg hne] at hc'
    cases hc'
    have hoffset := hrestores.offset
    simp only at hoffset
    omega
  · intro hzero
    rw [if_pos hzero]
    exact ⟨_, rfl, rfl, rfl, rfl, fun _ _ _ => rfl⟩

theorem import_export_trimmed :
    importBlockchain nullHash ⟨0, nullHash, []⟩ (exportBlockchain ⟨1, nullHash, [nullHash]⟩) =
      .ok ⟨0, nullHash, [nullHash, nullHash]⟩ := rfl

end Velkavo.Wallet
