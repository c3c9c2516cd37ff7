import Mathlib.Algebra.Order.Ring.Nat
import Mathlib.Data.Nat.Log
import Mathlib.Data.UInt

namespace Velkavo.Wallet

structure DatedChain where
  height : ℕ
  timestamp : ℕ → UInt64
  pos : 0 < height

def dateLoop (c : DatedChain) (timestampTarget : UInt64) : ℕ → ℕ → ℕ → Option (Except String ℕ)
  | 0, _, _ => none
  | queries + 1, heightMin, heightMax =>
    let heightMid := (heightMin + heightMax) / 2
    let timestampMin := c.timestamp heightMin
    let timestampMid := c.timestamp heightMid
    let timestampMax := c.timestamp heightMax
    if ¬(timestampMin ≤ timestampMid ∧ timestampMid ≤ timestampMax) then
      some (.ok (min heightMin (min heightMid heightMax)))
    else if timestampTarget > timestampMax then some (.error "specified date is in the future")
    else if timestampTarget ≤ timestampMin + 2 * 24 * 60 * 60 then some (.ok heightMin)
    else
      let range := if timestampTarget ≤ timestampMid then (heightMin, heightMid) else (heightMid, heightMax)
      if range.2 - range.1 ≤ 2 * 24 * 30 then some (.ok range.1)
      else dateLoop c timestampTarget queries range.1 range.2

def getBlockchainHeightByDate (c : DatedChain) (timestampTarget : UInt64) (queries : ℕ) : Option (Except String ℕ) :=
  dateLoop c timestampTarget queries 0 (c.height - 1)

def DatedChain.Chronological (c : DatedChain) : Prop := ∀ i j, i ≤ j → j < c.height → c.timestamp i ≤ c.timestamp j

structure DatedChain.First (c : DatedChain) (timestampTarget : UInt64) (first : ℕ) : Prop where
  lt : first < c.height
  le : timestampTarget ≤ c.timestamp first
  least : ∀ h < first, c.timestamp h < timestampTarget

structure RestoreHeight (c : DatedChain) (timestampTarget : UInt64) (height : ℕ) : Prop where
  before : height = 0 ∨ c.timestamp height < timestampTarget
  safe : c.Chronological → ∀ h < c.height, timestampTarget ≤ c.timestamp h → height ≤ h
  close : c.Chronological → ∀ first, c.First timestampTarget first →
    timestampTarget.toNat ≤ (c.timestamp height).toNat + 2 * 24 * 60 * 60 ∨ first ≤ height + 2 * 24 * 30

variable {c : DatedChain} {timestampTarget : UInt64} {heightMin heightMax : ℕ}

structure Bracket (c : DatedChain) (timestampTarget : UInt64) (heightMin heightMax : ℕ) : Prop where
  le : heightMin ≤ heightMax
  lt : heightMax < c.height
  before : heightMin = 0 ∨ c.timestamp heightMin < timestampTarget
  after : timestampTarget ≤ c.timestamp heightMax

namespace Bracket

theorem safe (h : Bracket c timestampTarget heightMin heightMax) (hc : c.Chronological) :
    ∀ i < c.height, timestampTarget ≤ c.timestamp i → heightMin ≤ i := by
  intro i hi htarget
  rcases h.before with hzero | hlt
  · rw [hzero]
    exact Nat.zero_le i
  · by_contra hlow
    have hle := hc i heightMin (Nat.le_of_not_le hlow) (Nat.lt_of_le_of_lt h.le h.lt)
    exact absurd (UInt64.lt_of_le_of_lt (UInt64.le_trans htarget hle) hlt) (UInt64.lt_irrefl _)

theorem first_le (h : Bracket c timestampTarget heightMin heightMax) {first : ℕ} (hfirst : c.First timestampTarget first) :
    first ≤ heightMax := by
  by_contra hlt
  exact absurd (UInt64.lt_of_le_of_lt h.after (hfirst.least _ (Nat.lt_of_not_le hlt))) (UInt64.lt_irrefl _)

theorem lower (h : Bracket c timestampTarget heightMin heightMax)
    (hmid : timestampTarget ≤ c.timestamp ((heightMin + heightMax) / 2)) :
    Bracket c timestampTarget heightMin ((heightMin + heightMax) / 2) := by
  have hle := h.le
  have hlt := h.lt
  exact ⟨by omega, by omega, h.before, hmid⟩

theorem upper (h : Bracket c timestampTarget heightMin heightMax)
    (hmid : ¬timestampTarget ≤ c.timestamp ((heightMin + heightMax) / 2)) :
    Bracket c timestampTarget ((heightMin + heightMax) / 2) heightMax := by
  have hle := h.le
  exact ⟨by omega, h.lt, Or.inr (UInt64.not_le.mp hmid), h.after⟩

theorem restore_of_buffer (h : Bracket c timestampTarget heightMin heightMax)
    (hbuffer : timestampTarget ≤ c.timestamp heightMin + 2 * 24 * 60 * 60) : RestoreHeight c timestampTarget heightMin := by
  refine ⟨h.before, h.safe, fun _ first _ => Or.inl ?_⟩
  have hle := UInt64.le_iff_toNat_le.mp hbuffer
  rw [UInt64.toNat_add, show (2 * 24 * 60 * 60 : UInt64).toNat = 172800 from rfl] at hle
  exact Nat.le_trans hle (Nat.mod_le _ _)

theorem restore_of_close (h : Bracket c timestampTarget heightMin heightMax) (hclose : heightMax - heightMin ≤ 2 * 24 * 30) :
    RestoreHeight c timestampTarget heightMin := by
  refine ⟨h.before, h.safe, fun _ first hfirst => Or.inr ?_⟩
  have hle := h.first_le hfirst
  omega

theorem restore_of_disorder (h : Bracket c timestampTarget heightMin heightMax)
    (hdisorder : ¬(c.timestamp heightMin ≤ c.timestamp ((heightMin + heightMax) / 2) ∧
      c.timestamp ((heightMin + heightMax) / 2) ≤ c.timestamp heightMax)) : RestoreHeight c timestampTarget heightMin := by
  have hle := h.le
  have hlt := h.lt
  have hnot : ¬c.Chronological := fun hc => hdisorder ⟨hc _ _ (by omega) (by omega), hc _ _ (by omega) hlt⟩
  exact ⟨h.before, fun hc => absurd hc hnot, fun hc => absurd hc hnot⟩

theorem turn (h : Bracket c timestampTarget heightMin heightMax) (queries : ℕ) :
    (∃ height, dateLoop c timestampTarget (queries + 1) heightMin heightMax = some (.ok height) ∧
        RestoreHeight c timestampTarget height) ∨
      ∃ heightMin' heightMax', Bracket c timestampTarget heightMin' heightMax' ∧ 2 * 24 * 30 < heightMax' - heightMin' ∧
        2 * (heightMax' - heightMin') ≤ heightMax - heightMin + 1 ∧
        dateLoop c timestampTarget (queries + 1) heightMin heightMax = dateLoop c timestampTarget queries heightMin' heightMax' := by
  have hle := h.le
  rw [dateLoop]
  by_cases hdisorder : ¬(c.timestamp heightMin ≤ c.timestamp ((heightMin + heightMax) / 2) ∧
      c.timestamp ((heightMin + heightMax) / 2) ≤ c.timestamp heightMax)
  · refine Or.inl ⟨heightMin, ?_, h.restore_of_disorder hdisorder⟩
    rw [if_pos hdisorder, Nat.min_eq_left (by omega : heightMin ≤ min ((heightMin + heightMax) / 2) heightMax)]
  rw [if_neg hdisorder, if_neg (UInt64.not_lt.mpr h.after)]
  by_cases hbuffer : timestampTarget ≤ c.timestamp heightMin + 2 * 24 * 60 * 60
  · exact Or.inl ⟨heightMin, if_pos hbuffer, h.restore_of_buffer hbuffer⟩
  rw [if_neg hbuffer]
  by_cases hmid : timestampTarget ≤ c.timestamp ((heightMin + heightMax) / 2)
  · simp only [if_pos hmid]
    by_cases hclose : (heightMin + heightMax) / 2 - heightMin ≤ 2 * 24 * 30
    · exact Or.inl ⟨_, if_pos hclose, (h.lower hmid).restore_of_close hclose⟩
    · exact Or.inr ⟨_, _, h.lower hmid, Nat.lt_of_not_le hclose, by omega, if_neg hclose⟩
  · simp only [if_neg hmid]
    by_cases hclose : heightMax - (heightMin + heightMax) / 2 ≤ 2 * 24 * 30
    · exact Or.inl ⟨_, if_pos hclose, (h.upper hmid).restore_of_close hclose⟩
    · exact Or.inr ⟨_, _, h.upper hmid, Nat.lt_of_not_le hclose, by omega, if_neg hclose⟩

theorem dateLoop_spec (halvings : ℕ) (h : Bracket c timestampTarget heightMin heightMax)
    (hwidth : heightMax - heightMin ≤ 2 * 24 * 30 * 2 ^ halvings) :
    ∃ height, dateLoop c timestampTarget (halvings + 1) heightMin heightMax = some (.ok height) ∧
      RestoreHeight c timestampTarget height := by
  induction halvings generalizing heightMin heightMax with
  | zero =>
    rcases h.turn 0 with hfound | ⟨heightMin', heightMax', _, hwide, hhalf, _⟩
    · exact hfound
    · omega
  | succ halvings ih =>
    rcases h.turn (halvings + 1) with hfound | ⟨heightMin', heightMax', hbracket, _, hhalf, heq⟩
    · exact hfound
    · rw [heq]
      apply ih hbracket
      rw [Nat.pow_succ] at hwidth
      omega

end Bracket

theorem height_by_date_restores (c : DatedChain) (timestampTarget : UInt64) (htip : timestampTarget ≤ c.timestamp (c.height - 1)) :
    ∃ height, getBlockchainHeightByDate c timestampTarget (Nat.clog 2 c.height + 1) = some (.ok height) ∧
      RestoreHeight c timestampTarget height := by
  have hpos := c.pos
  have hbracket : Bracket c timestampTarget 0 (c.height - 1) := ⟨Nat.zero_le _, by omega, Or.inl rfl, htip⟩
  apply hbracket.dateLoop_spec
  have hclog := Nat.le_pow_clog Nat.one_lt_two c.height
  omega

def jumpingChain : DatedChain := ⟨1443, fun h => if h < 1442 then 0 else 864000, by decide⟩

theorem height_by_date_one_day :
    (86400 : UInt64) ≤ jumpingChain.timestamp 1442 ∧
      ∃ height, getBlockchainHeightByDate jumpingChain 86400 (Nat.clog 2 1443 + 1) = some (.ok height) ∧
        RestoreHeight jumpingChain 86400 height :=
  ⟨by decide, height_by_date_restores jumpingChain 86400 (by decide)⟩

theorem height_by_date_jump :
    jumpingChain.Chronological ∧ jumpingChain.First 86400 1442 ∧ getBlockchainHeightByDate jumpingChain 86400 1 = some (.ok 0) ∧
      (jumpingChain.timestamp 0).toNat + 2 * 24 * 60 * 60 < (jumpingChain.timestamp 1442).toNat ∧ 0 + 2 * 24 * 30 < 1442 := by
  refine ⟨fun i j hle _ => ?_, ⟨by decide, by decide, fun h hlt => ?_⟩, by decide, by decide, by decide⟩
  · by_cases hj : j < 1442
    · simp [jumpingChain, hj, Nat.lt_of_le_of_lt hle hj]
    · by_cases hi : i < 1442 <;> simp [jumpingChain, hj, hi]
  · simp only [jumpingChain, if_pos hlt]
    decide

end Velkavo.Wallet
