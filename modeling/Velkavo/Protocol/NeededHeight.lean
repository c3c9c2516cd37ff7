import Velkavo.Protocol.BlockQueue

namespace Velkavo.Protocol

namespace BlockQueue

variable {κ β : Type}

def neededLoop (blockchainHeight : UInt64) : List (UInt64 × Span κ β) → UInt64 → UInt64
  | [], coveredUntil => coveredUntil
  | (start, span) :: rest, coveredUntil =>
    let spanEnd := start + span.nblocks - 1
    if spanEnd < blockchainHeight then neededLoop blockchainHeight rest coveredUntil
    else if start > coveredUntil then coveredUntil
    else if start ≤ coveredUntil then
      let next := start + span.nblocks
      neededLoop blockchainHeight rest (if coveredUntil < next then next else coveredUntil)
    else neededLoop blockchainHeight rest coveredUntil

def getNextNeededHeight (q : BlockQueue κ β) (blockchainHeight : UInt64) : UInt64 :=
  if q.blocks.entries.isEmpty then blockchainHeight
  else neededLoop blockchainHeight q.blocks.entries blockchainHeight

def Covers (j : UInt64 × Span κ β) (h : UInt64) : Prop := j.1 ≤ h ∧ h.toNat < j.1.toNat + j.2.nblocks.toNat

def Free (q : BlockQueue κ β) (h : UInt64) : Prop := ∀ j ∈ q.blocks.entries, ¬ Covers j h

theorem neededLoop_least {bh m : UInt64} (l : List (UInt64 × Span κ β)) (c : UInt64)
    (hsorted : l.Pairwise fun x y => x.1.toNat < y.1.toNat) (hbh : bh.toNat ≤ c.toNat) (hcm : c.toNat ≤ m.toNat)
    (hm : ∀ j ∈ l, ¬ Covers j m) :
    c.toNat ≤ (neededLoop bh l c).toNat ∧ (∀ j ∈ l, ¬ Covers j (neededLoop bh l c)) ∧
      ∀ h : UInt64, c.toNat ≤ h.toNat → h.toNat < (neededLoop bh l c).toNat → ∃ j ∈ l, Covers j h := by
  induction l generalizing c with
  | nil => exact ⟨le_rfl, List.forall_mem_nil _, fun h hc hlt => absurd hlt (Nat.not_lt.mpr hc)⟩
  | cons j rest ih =>
    obtain ⟨start, span⟩ := j
    obtain ⟨hfirst, hrest⟩ := List.pairwise_cons.mp hsorted
    obtain ⟨hmj, hmrest⟩ := List.forall_mem_cons.mp hm
    have hlt := m.toNat_lt
    have hsum : (start + span.nblocks).toNat = (start.toNat + span.nblocks.toNat) % 2 ^ 64 := UInt64.toNat_add ..
    simp only [Covers, UInt64.le_iff_toNat_le, not_and_or, not_le, not_lt] at hmj
    rw [neededLoop]
    by_cases hskip : start + span.nblocks - 1 < bh
    · obtain ⟨hle, hfree, hbelow⟩ := ih c hrest hbh hcm hmrest
      simp only [hskip, ↓reduceIte]
      refine ⟨hle, List.forall_mem_cons.mpr ⟨?_, hfree⟩, fun h hc hh => ?_⟩
      · -- the loop does not get past `m`, and a span whose end wraps begins above `m`
        have hrm : (neededLoop bh rest c).toNat ≤ m.toNat := by
          by_contra hgt
          obtain ⟨j, hj, hcover⟩ := hbelow m hcm (not_le.mp hgt)
          exact hmrest j hj hcover
        rintro ⟨hstart, hend⟩
        dsimp only at hstart hend
        rw [UInt64.le_iff_toNat_le] at hstart
        rw [UInt64.lt_iff_toNat_lt, UInt64.toNat_sub, hsum, UInt64.toNat_one] at hskip
        omega
      · obtain ⟨j, hj, hcover⟩ := hbelow h hc hh
        exact ⟨j, List.mem_cons_of_mem _ hj, hcover⟩
    · simp only [hskip, ↓reduceIte]
      by_cases hgap : start > c
      · simp only [hgap, ↓reduceIte]
        have hstart : c.toNat < start.toNat := UInt64.lt_iff_toNat_lt.mp hgap
        refine ⟨le_rfl, fun j hj hcover => ?_, fun h hc hh => absurd hh (Nat.not_lt.mpr hc)⟩
        have hle := UInt64.le_iff_toNat_le.mp hcover.1
        rcases List.mem_cons.mp hj with rfl | hj
        · exact absurd hle (Nat.not_le.mpr hstart)
        · exact absurd hle (Nat.not_le.mpr (hstart.trans (hfirst j hj)))
      · have hstart : start.toNat ≤ c.toNat := UInt64.le_iff_toNat_le.mp (UInt64.not_lt.mp hgap)
        simp only [hgap, UInt64.not_lt.mp hgap, ↓reduceIte]
        generalize hnext : (if c < start + span.nblocks then start + span.nblocks else c) = next
        have hmax : next.toNat = max c.toNat (start.toNat + span.nblocks.toNat) := by
          rw [← hnext]
          split_ifs with hc
          · rw [UInt64.lt_iff_toNat_lt, hsum] at hc
            omega
          · rw [UInt64.lt_iff_toNat_lt, hsum] at hc
            omega
        obtain ⟨hle, hfree, hbelow⟩ := ih next hrest (by omega) (by omega) hmrest
        refine ⟨by omega, List.forall_mem_cons.mpr ⟨?_, hfree⟩, fun h hc hh => ?_⟩
        · rintro ⟨-, hend⟩
          dsimp only at hend
          omega
        · by_cases hin : h.toNat < start.toNat + span.nblocks.toNat
          · exact ⟨_, List.mem_cons_self, UInt64.le_iff_toNat_le.mpr (hstart.trans hc), hin⟩
          · obtain ⟨j, hj, hcover⟩ := hbelow h (by omega) hh
            exact ⟨j, List.mem_cons_of_mem _ hj, hcover⟩

theorem next_needed_height_least (q : BlockQueue κ β) (blockchainHeight : UInt64)
    (hsome : ∃ h, blockchainHeight ≤ h ∧ q.Free h) :
    IsLeast {h | blockchainHeight ≤ h ∧ q.Free h} (q.getNextNeededHeight blockchainHeight) := by
  obtain ⟨m, hle, hfree⟩ := hsome
  rw [UInt64.le_iff_toNat_le] at hle
  obtain ⟨hfrom, hnone, hbelow⟩ :=
    neededLoop_least q.blocks.entries blockchainHeight q.blocks.sorted le_rfl hle hfree
  have hresult : q.getNextNeededHeight blockchainHeight = neededLoop blockchainHeight q.blocks.entries blockchainHeight := by
    rw [getNextNeededHeight]
    split_ifs with hempty
    · rw [List.isEmpty_iff.mp hempty]
      rfl
    · rfl
  rw [hresult]
  refine ⟨⟨UInt64.le_iff_toNat_le.mpr hfrom, hnone⟩, ?_⟩
  rintro h ⟨hh, hhfree⟩
  rw [UInt64.le_iff_toNat_le] at hh ⊢
  by_contra hlt
  obtain ⟨j, hj, hcover⟩ := hbelow h hh (not_le.mp hlt)
  exact hhfree j hj hcover

def spanAt (start nblocks : UInt64) : BlockQueue ℕ ℕ := (∅ : BlockQueue ℕ ℕ).insertSpan start ⟨[], [], 0, nblocks⟩

theorem free_spanAt_three : (spanAt 3 2).Free 5 := by
  rintro j hj ⟨-, hend⟩
  rw [List.mem_singleton.mp hj] at hend
  exact absurd hend (by decide)

theorem next_needed_height_after_span :
    (spanAt 3 2).Free 5 ∧ IsLeast {h | 3 ≤ h ∧ (spanAt 3 2).Free h} ((spanAt 3 2).getNextNeededHeight 3) :=
  ⟨free_spanAt_three, next_needed_height_least _ 3 ⟨5, by decide, free_spanAt_three⟩⟩

theorem next_needed_height_covered :
    ¬ (spanAt 0xffffffffffffffff 1).Free ((spanAt 0xffffffffffffffff 1).getNextNeededHeight 0xffffffffffffffff) := by
  intro hfree
  exact hfree _ (List.mem_singleton.mpr rfl) ⟨by decide, by decide⟩

end BlockQueue

end Velkavo.Protocol
