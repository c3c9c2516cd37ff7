import Velkavo.Protocol.ReserveSpan
import Velkavo.Effects.Runs

namespace Velkavo.Protocol

open Cryptonote

namespace BlockQueue

variable {κ β : Type} [DecidableEq κ] {q : BlockQueue κ β}

inductive Call (κ β : Type)
  | addBlocks (height : UInt64) (bcel : List β) (connectionId : κ)
  | addScheduled (height nblocks : UInt64) (connectionId : κ)
  | reserveSpan (a : Reservation κ)
  | flushSpans (connectionId : κ) (all : Bool)
  | flushStaleSpans (liveConnections : List κ)
  | removeSpan (startBlockHeight : UInt64)
  | removeSpans (connectionId : κ) (startBlockHeight : UInt64)
  | setSpanHashes (startHeight : UInt64) (connectionId : κ) (hashes : List Hash)

def step (q : BlockQueue κ β) : Call κ β → BlockQueue κ β
  | .addBlocks height bcel connectionId => q.addBlocks height bcel connectionId
  -- an exception leaves the queue as it is
  | .addScheduled height nblocks connectionId => (q.addScheduled height nblocks connectionId).getD q
  | .reserveSpan a => (q.reserveSpan a).1
  | .flushSpans connectionId all => q.flushSpans connectionId all
  | .flushStaleSpans liveConnections => q.flushStaleSpans liveConnections
  | .removeSpan startBlockHeight => (q.removeSpan startBlockHeight).1
  | .removeSpans connectionId startBlockHeight => q.removeSpans connectionId startBlockHeight
  | .setSpanHashes startHeight connectionId hashes => q.setSpanHashes startHeight connectionId hashes

def run (q : BlockQueue κ β) (calls : List (Call κ β)) : BlockQueue κ β := calls.foldl step q

def Clean (q : BlockQueue κ β) : Call κ β → Prop
  | .addBlocks height bcel _ => bcel = [] → ∀ x ∈ q.blocks.entries, x.1 ≠ height
  | .addScheduled _ _ _ => True
  | .reserveSpan a => ∀ x ∈ q.blocks.entries, a.firstHeight ≤ x.1.toNat → x.1 ≤ a.lastBlockHeight →
      x.2.connectionId = a.connectionId → q.Replaceable x
  | .flushSpans connectionId all =>
    q.Apart fun j => j.2.connectionId = connectionId && (all || j.2.blocks.isEmpty)
  | .flushStaleSpans liveConnections =>
    q.Apart fun j => j.2.blocks.isEmpty && decide (j.2.connectionId ∉ liveConnections)
  | .removeSpan startBlockHeight => q.Apart fun j => j.1 = startBlockHeight
  | .removeSpans connectionId startBlockHeight =>
    q.Apart fun j => j.2.connectionId = connectionId && decide (j.1 ≤ startBlockHeight)
  | .setSpanHashes startHeight connectionId _ =>
    ∀ x ∈ q.blocks.entries, x.1 = startHeight → x.2.connectionId = connectionId → q.Replaceable x

instance [DecidableEq β] (gone : UInt64 × Span κ β → Bool) : Decidable (q.Apart gone) :=
  inferInstanceAs (Decidable (∀ x ∈ q.blocks.entries, _))

instance [DecidableEq β] (x : UInt64 × Span κ β) : Decidable (q.Replaceable x) := inferInstanceAs (Decidable (_ ∧ _))

instance [DecidableEq β] : DecidablePred q.Clean
  | .addBlocks _ bcel _ => inferInstanceAs (Decidable (bcel = [] → ∀ x ∈ q.blocks.entries, _))
  | .addScheduled _ _ _ => inferInstanceAs (Decidable True)
  | .reserveSpan _ => inferInstanceAs (Decidable (∀ x ∈ q.blocks.entries, _))
  | .flushSpans _ _ => inferInstanceAs (Decidable (q.Apart _))
  | .flushStaleSpans _ => inferInstanceAs (Decidable (q.Apart _))
  | .removeSpan _ => inferInstanceAs (Decidable (q.Apart _))
  | .removeSpans _ _ => inferInstanceAs (Decidable (q.Apart _))
  | .setSpanHashes _ _ _ => inferInstanceAs (Decidable (∀ x ∈ q.blocks.entries, _))

theorem Indexed.reserveSpan (hq : q.Indexed) {a : Reservation κ} (h : q.Clean (.reserveSpan a)) :
    (q.reserveSpan a).1.Indexed := by
  rcases q.reserveSpan_cases a with hnone | ⟨s, n, hn, hchosen, hsome⟩
  · rwa [hnone]
  rw [hsome]
  refine (hq.insertSpan s rfl).setSpanHashes _ fun x hx hstart hconn => ?_
  by_cases hnew : ∀ y ∈ q.blocks.entries, y.1 ≠ s
  · rcases (mem_insertSpan hnew).mp hx with rfl | hx
    · exact ⟨rfl, fun y _ _ k hk => absurd hk List.not_mem_nil⟩
    · exact absurd hstart (hnew x hx)
  · push Not at hnew
    obtain ⟨y, hy, hys⟩ := hnew
    rw [insertSpan_found hy hys] at hx ⊢
    have hlast := hchosen.last
    refine h x hx ?_ ?_ hconn
    · rw [hstart]
      exact hchosen.first
    · rw [hstart, UInt64.le_iff_toNat_le]
      omega

theorem Indexed.step (hq : q.Indexed) {call : Call κ β} (h : q.Clean call) : (q.step call).Indexed := by
  cases call with
  | addBlocks height bcel connectionId => exact hq.addBlocks height bcel connectionId h
  | addScheduled height nblocks connectionId =>
    rw [BlockQueue.step, BlockQueue.addScheduled]
    split
    · exact hq
    · exact hq.insertSpan height rfl
  | reserveSpan a => exact hq.reserveSpan h
  | flushSpans connectionId all => exact (hq.erases_iff (q.erases_eraseBlocks _)).mpr h
  | flushStaleSpans liveConnections => exact (hq.erases_iff (q.erases_eraseBlocks _)).mpr h
  | removeSpan start => exact (hq.erases_iff (q.erases_removeSpan start)).mpr h
  | removeSpans connectionId start => exact (hq.erases_iff (q.erases_eraseBlocks _)).mpr h
  | setSpanHashes start connectionId hashes => exact hq.setSpanHashes hashes h

theorem Indexed.run (hq : q.Indexed) {calls : List (Call κ β)}
    (h : ∀ done call rest, calls = done ++ call :: rest → (q.run done).Clean call) : (q.run calls).Indexed :=
  Effects.foldl_invariant hq (fun _ _ _ ht hclean => ht.step hclean) h

theorem run_indexed (calls : List (Call κ β))
    (h : ∀ done call rest, calls = done ++ call :: rest → ((∅ : BlockQueue κ β).run done).Clean call) :
    ((∅ : BlockQueue κ β).run calls).Indexed := indexed_empty.run h

section

def fetching : List (Call ℕ ℕ) :=
  [.reserveSpan (ask 1 11 [1, 2]), .addBlocks 10 [5, 6] 1, .reserveSpan (ask 2 12 [1, 2, 3]), .flushSpans 2 true]

theorem run_indexed_fetching : ((∅ : BlockQueue ℕ ℕ).run fetching).Indexed := by
  refine run_indexed fetching (Effects.forall_splits fun i hi call hcall => ?_)
  have hall : ∀ i < 4, (fetching[i]?.all fun call => decide (((∅ : BlockQueue ℕ ℕ).run (fetching.take i)).Clean call)) =
      true := by
    decide +kernel
  have hstep := hall i hi
  rw [hcall, Option.all_some] at hstep
  exact of_decide_eq_true hstep

def overlapping : List (Call ℕ ℕ) := [.reserveSpan (ask 1 11 [1, 2]), .reserveSpan (ask 2 11 [3, 1, 2])]

def received : List (Call ℕ ℕ) := [.addBlocks 10 [5, 6] 1, .addBlocks 9 [4, 5, 6] 2]

theorem run_not_indexed :
    ¬((∅ : BlockQueue ℕ ℕ).run (overlapping ++ [.flushSpans 1 true])).Indexed ∧
      ¬((∅ : BlockQueue ℕ ℕ).run (overlapping ++ received ++ [.removeSpan 10])).Indexed := by
  constructor
  · intro hindexed
    have hlisted : ∃ x ∈ ((∅ : BlockQueue ℕ ℕ).run (overlapping ++ [.flushSpans 1 true])).blocks.entries,
        numberedHash 1 ∈ x.2.hashes := by
      decide +kernel
    exact absurd ((hindexed.requested _).mpr hlisted) (by decide +kernel)
  · intro hindexed
    have hlisted : ∃ x ∈ ((∅ : BlockQueue ℕ ℕ).run (overlapping ++ received ++ [.removeSpan 10])).blocks.entries,
        x.2.blocks ≠ [] ∧ numberedHash 1 ∈ x.2.hashes := by
      decide +kernel
    exact absurd ((hindexed.received _).mpr hlisted) (by decide +kernel)

end

end BlockQueue

end Velkavo.Protocol
