import Velkavo.Protocol.SpanIndex

namespace Velkavo.Protocol

open Cryptonote

namespace BlockQueue

variable {κ β : Type} {q q' : BlockQueue κ β} {a : Reservation κ} {s n : UInt64}

theorem skipRequested_eq (q : BlockQueue κ β) (l : List (Hash × UInt64)) (s : UInt64) :
    ∃ k ≤ l.length, q.skipRequested l s = (l.drop k, s + .ofNat k) ∧ ∀ e ∈ (l.drop k).head?, q.requested e.1 = false := by
  induction l generalizing s with
  | nil => exact ⟨0, le_rfl, by simp [skipRequested], fun e he => by cases he⟩
  | cons i rest ih =>
    rw [skipRequested]
    by_cases hi : q.requested i.1 = true
    · rw [if_pos hi]
      obtain ⟨k, hk, heq, hhead⟩ := ih (s + 1)
      refine ⟨k + 1, Nat.succ_le_succ hk, ?_, hhead⟩
      rw [heq, List.drop_succ_cons, UInt64.ofNat_add, UInt64.add_assoc, UInt64.add_comm 1]
      rfl
    · rw [if_neg hi]
      refine ⟨0, Nat.zero_le _, by simp, fun e he => ?_⟩
      cases he
      exact Bool.eq_false_iff.mpr hi

namespace Reservation

theorem le_jump (s : UInt64) : s ≤ a.jump s := by
  rw [jump]
  split
  · exact UInt64.le_refl s
  dsimp only
  split
  · rename_i hnext
    rw [Bool.and_eq_true, decide_eq_true_eq] at hnext
    exact UInt64.le_of_lt hnext.1
  · exact UInt64.le_refl s

theorem spanHashes_eq (s : UInt64) (l : List (Hash × UInt64)) (len : UInt64) :
    ∃ k ≤ l.length, a.spanHashes s l len = ((l.take k).map Prod.fst, len + .ofNat k) ∧
      ∀ j < k, len + .ofNat j < a.maxBlocks ∧ a.goesOn s (s + (len + .ofNat j)) = true := by
  induction l generalizing len with
  | nil => exact ⟨0, le_rfl, by simp [spanHashes], fun j hj => by cases hj⟩
  | cons i rest ih =>
    rw [spanHashes]
    by_cases hi : (decide (len < a.maxBlocks) && a.goesOn s (s + len)) = true
    · rw [if_pos hi]
      rw [Bool.and_eq_true, decide_eq_true_eq] at hi
      obtain ⟨k, hk, heq, hall⟩ := ih (len + 1)
      have hsucc : ∀ j, len + UInt64.ofNat (j + 1) = len + 1 + UInt64.ofNat j := by
        intro j
        rw [UInt64.ofNat_add, UInt64.add_assoc, UInt64.add_comm 1]
        rfl
      refine ⟨k + 1, Nat.succ_le_succ hk, ?_, fun j hj => ?_⟩
      · dsimp only
        rw [heq, hsucc, List.take_succ_cons, List.map_cons]
      · cases j with
        | zero => simpa using hi
        | succ j =>
          rw [hsucc]
          exact hall j (by omega)
    · rw [if_neg hi]
      exact ⟨0, Nat.zero_le _, by simp, fun j hj => by cases hj⟩

def firstHeight (a : Reservation κ) : ℕ := a.lastBlockHeight.toNat + 1 - a.blockHashes.length

theorem toNat_startHeight (hsize : a.blockHashes.length ≤ a.lastBlockHeight.toNat) :
    a.blockHashesStartHeight.toNat = (a.lastBlockHeight.toNat - a.blockHashes.length + 1) % 2 ^ 64 := by
  have hlast := a.lastBlockHeight.toNat_lt
  have hlen : (UInt64.ofNat a.blockHashes.length).toNat = a.blockHashes.length := by
    rw [UInt64.toNat_ofNat', Nat.mod_eq_of_lt (by omega)]
  rw [blockHashesStartHeight, UInt64.toNat_add, UInt64.toNat_sub_of_le, hlen]
  · rfl
  · rw [UInt64.le_iff_toNat_le, hlen]
    exact hsize

section

variable {start : UInt64} (hsize : a.blockHashes.length ≤ a.lastBlockHeight.toNat)
  (hin : ¬start ≥ .ofNat a.blockHashes.length + a.blockHashesStartHeight)
include hsize hin

theorem le_last_of_lt : start.toNat ≤ a.lastBlockHeight.toNat ∧ a.lastBlockHeight.toNat + 1 < 2 ^ 64 := by
  have hlast := a.lastBlockHeight.toNat_lt
  rw [ge_iff_le, UInt64.not_le, UInt64.lt_iff_toNat_lt, UInt64.toNat_add, toNat_startHeight hsize,
    UInt64.toNat_ofNat'] at hin
  omega

theorem firstHeight_of_lt : a.blockHashesStartHeight.toNat = a.firstHeight := by
  have hlast := le_last_of_lt hsize hin
  rw [toNat_startHeight hsize, firstHeight]
  omega

end

structure Chosen (q : BlockQueue κ β) (a : Reservation κ) (s n : UInt64) : Prop where
  first : a.firstHeight ≤ s.toNat
  last : s.toNat + n.toNat ≤ a.lastBlockHeight.toNat + 1
  max : n ≤ a.maxBlocks
  fresh : ∃ e, a.blockHashes[s.toNat - a.firstHeight]? = some e ∧ q.requested e.1 = false
  unpruned : a.syncPrunedBlocks = false → ∀ j < n, hasUnprunedBlock (s + j) a.blockchainHeight a.pruningSeed = true

def chosenHashes (a : Reservation κ) (s n : UInt64) : List Hash :=
  ((a.blockHashes.drop (s.toNat - a.firstHeight)).take n.toNat).map Prod.fst

end Reservation

variable [DecidableEq κ]

theorem reserveSpan_cases (q : BlockQueue κ β) (a : Reservation κ) :
    q.reserveSpan a = (q, 0, 0) ∨ ∃ s n, 0 < n.toNat ∧ Reservation.Chosen q a s n ∧
      q.reserveSpan a =
        ((q.insertSpan s ⟨[], [], a.connectionId, n⟩).setSpanHashes s a.connectionId (a.chosenHashes s n), s, n) := by
  rw [reserveSpan]
  split
  · exact .inl rfl
  split
  · exact .inl rfl
  rename_i hsize
  obtain ⟨k, hk, hskip, -⟩ := q.skipRequested_eq a.blockHashes a.blockHashesStartHeight
  rw [hskip]
  dsimp only
  split
  · exact .inl rfl
  rename_i hin
  generalize hstart : a.jump (a.blockHashesStartHeight + UInt64.ofNat k) = start at hin ⊢
  have hfirst := Reservation.firstHeight_of_lt (by omega) hin
  have hlast := a.lastBlockHeight.toNat_lt
  have hend := Reservation.le_last_of_lt (by omega) hin
  have hle : a.firstHeight + k ≤ start.toNat := by
    have hjump := UInt64.le_iff_toNat_le.mp (Reservation.le_jump (a := a) (a.blockHashesStartHeight + .ofNat k))
    rw [hstart, UInt64.toNat_add, hfirst, UInt64.toNat_ofNat'] at hjump
    rw [Reservation.firstHeight] at hjump ⊢
    omega
  have hoff : (start - a.blockHashesStartHeight).toNat = start.toNat - a.firstHeight := by
    rw [UInt64.toNat_sub_of_le _ _ (UInt64.le_iff_toNat_le.mpr (by omega)), hfirst]
  rw [hoff]
  obtain ⟨k', hk', hskip', hhead⟩ := q.skipRequested_eq (a.blockHashes.drop (start.toNat - a.firstHeight)) start
  rw [hskip']
  rw [List.drop_drop] at hhead ⊢
  rw [List.length_drop] at hk'
  dsimp only
  generalize hs : start + UInt64.ofNat k' = s
  have hsnat : s.toNat = start.toNat + k' := by
    rw [← hs, UInt64.toNat_add, UInt64.toNat_ofNat']
    rw [Reservation.firstHeight] at hle hk'
    omega
  have hplace : start.toNat - a.firstHeight + k' = s.toNat - a.firstHeight := by omega
  rw [hplace] at hhead ⊢
  obtain ⟨m, hm, hspan, hall⟩ :=
    Reservation.spanHashes_eq (a := a) s (a.blockHashes.drop (s.toNat - a.firstHeight)) 0
  rw [hspan]
  rw [List.length_drop] at hm
  simp only [UInt64.zero_add] at hall ⊢
  have hmlt : m < 2 ^ 64 := by rw [Reservation.firstHeight] at hm; omega
  have hmnat : (UInt64.ofNat m).toNat = m := by rw [UInt64.toNat_ofNat', Nat.mod_eq_of_lt hmlt]
  split
  · exact .inl rfl
  rename_i hzero
  have hpos : 0 < m := by
    refine Nat.pos_of_ne_zero fun heq => hzero ?_
    rw [heq]
    rfl
  refine .inr ⟨s, UInt64.ofNat m, by omega, ⟨by omega, ?_, ?_, ?_, fun hsync j hj => ?_⟩, ?_⟩
  · rw [hmnat]
    rw [Reservation.firstHeight] at hm hle
    omega
  · have hmax := (hall (m - 1) (by omega)).1
    rw [UInt64.lt_iff_toNat_lt, UInt64.toNat_ofNat', Nat.mod_eq_of_lt (by omega)] at hmax
    rw [UInt64.le_iff_toNat_le]
    omega
  · have hget : s.toNat - a.firstHeight < a.blockHashes.length := by omega
    refine ⟨_, List.getElem?_eq_getElem hget, hhead _ ?_⟩
    rw [List.head?_drop, List.getElem?_eq_getElem hget]
    exact Option.mem_some_self _
  · rw [UInt64.lt_iff_toNat_lt, hmnat] at hj
    have hgoes := (hall j.toNat hj).2
    rw [UInt64.ofNat_toNat, Reservation.goesOn, hsync] at hgoes
    simpa using hgoes
  · rw [addScheduled, if_neg hzero, Option.getD_some, Reservation.chosenHashes, hmnat]

structure Reserved (q q' : BlockQueue κ β) (a : Reservation κ) (s n : UInt64) : Prop extends
    Reservation.Chosen q a s n where
  span : ∃ x, (s, x) ∈ q'.blocks.entries ∧ x.connectionId = a.connectionId ∧ x.nblocks = n ∧
    x.hashes = a.chosenHashes s n

theorem reserveSpan_reserved_iff (q q' : BlockQueue κ β) (a : Reservation κ) (s n : UInt64)
    (hreserve : q.reserveSpan a = (q', s, n)) (hn : 0 < n) :
    Reserved q q' a s n ↔ ∀ x, (s, x) ∈ q.blocks.entries → x.connectionId = a.connectionId ∧ x.nblocks = n := by
  rcases q.reserveSpan_cases a with hnone | ⟨s', n', -, hchosen, hsome⟩
  · rw [hreserve, Prod.mk.injEq, Prod.mk.injEq] at hnone
    rw [hnone.2.2] at hn
    exact absurd hn (UInt64.lt_irrefl 0)
  rw [hreserve, Prod.mk.injEq, Prod.mk.injEq] at hsome
  obtain ⟨rfl, rfl, rfl⟩ := hsome
  generalize hins : q.insertSpan s ⟨[], [], a.connectionId, n⟩ = inserted
  constructor
  · rintro ⟨-, y, hy, hconn, hlen, -⟩ x hx
    rw [insertSpan_found hx rfl] at hins
    subst hins
    rcases q.setSpanHashes_cases s a.connectionId (a.chosenHashes s n) with ⟨hsame, -⟩ | ⟨z, hz, hstart, hzconn, hrelists⟩
    · rw [hsame] at hy
      cases start_inj hx hy rfl
      exact ⟨hconn, hlen⟩
    · -- the span that was there only gets the new hashes
      obtain rfl : z = (s, x) := start_inj hz hx hstart
      rcases (hrelists.entries _).mp hy with heq | ⟨-, hne⟩
      · cases heq
        exact ⟨hconn, hlen⟩
      · exact absurd rfl hne
  · intro hfree
    refine ⟨hchosen, ?_⟩
    obtain ⟨x, hx, hconn, hlen⟩ : ∃ x, (s, x) ∈ inserted.blocks.entries ∧ x.connectionId = a.connectionId ∧ x.nblocks = n := by
      by_cases hnew : ∀ y ∈ q.blocks.entries, y.1 ≠ s
      · rw [← hins]
        exact ⟨_, (mem_insertSpan hnew).mpr (.inl rfl), rfl, rfl⟩
      · push Not at hnew
        obtain ⟨⟨_, x⟩, hx, rfl⟩ := hnew
        rw [← hins, insertSpan_found hx rfl]
        exact ⟨x, hx, hfree x hx⟩
    rcases inserted.setSpanHashes_cases s a.connectionId (a.chosenHashes s n) with ⟨-, hnone⟩ | ⟨z, hz, hstart, -, hrelists⟩
    · exact absurd hconn (hnone (s, x) hx rfl)
    · obtain rfl : z = (s, x) := start_inj hz hx hstart
      exact ⟨_, (hrelists.entries _).mpr (.inl rfl), hconn, hlen, rfl⟩

section

def numberedHash (k : UInt8) : Hash := ⟨k :: List.replicate 31 0, rfl⟩

def ask (connectionId : ℕ) (lastBlockHeight : UInt64) (hashes : List UInt8) : Reservation ℕ where
  firstBlockHeight := 0
  lastBlockHeight := lastBlockHeight
  maxBlocks := 20
  connectionId := connectionId
  syncPrunedBlocks := false
  localPruningSeed := 0
  pruningSeed := 0
  blockchainHeight := 100
  blockHashes := hashes.map fun k => (numberedHash k, 0)

def asked : BlockQueue ℕ ℕ := ((∅ : BlockQueue ℕ ℕ).reserveSpan (ask 1 11 [1, 2])).1

theorem reserveSpan_reserved_iff_above :
    Reserved asked (asked.reserveSpan (ask 2 12 [1, 2, 3])).1 (ask 2 12 [1, 2, 3]) 12 1 := by
  have hreturn : (asked.reserveSpan (ask 2 12 [1, 2, 3])).2 = (12, 1) := by decide +kernel
  refine (reserveSpan_reserved_iff asked _ (ask 2 12 [1, 2, 3]) 12 1 (Prod.ext rfl hreturn) (by decide)).mpr fun x hx => ?_
  have hstarts : asked.blocks.entries.map Prod.fst = [10] := by decide +kernel
  have hmem := List.mem_map_of_mem (f := Prod.fst) hx
  rw [hstarts] at hmem
  have hstart : (12 : UInt64) = 10 := List.mem_singleton.mp hmem
  exact absurd hstart (by decide)

theorem reserveSpan_not_reserved :
    (asked.reserveSpan (ask 2 11 [3, 4])).2 = (10, 2) ∧
      ¬Reserved asked (asked.reserveSpan (ask 2 11 [3, 4])).1 (ask 2 11 [3, 4]) 10 2 := by
  refine ⟨by decide +kernel, ?_⟩
  rintro ⟨-, x, hx, hconn, -⟩
  have hconnections : (asked.reserveSpan (ask 2 11 [3, 4])).1.blocks.entries.map (fun x => x.2.connectionId) = [1] := by
    decide +kernel
  have hmem := List.mem_map_of_mem (f := fun x => x.2.connectionId) hx
  rw [hconnections, hconn] at hmem
  exact absurd hmem (by decide)

end

end BlockQueue

end Velkavo.Protocol
