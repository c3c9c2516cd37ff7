import Velkavo.Containers.SortedTable
import Velkavo.Core.ChainSwitch
import Velkavo.Core.Longhash202612

/-! Checkpoints that are enforced on a chain that is already there. -/

namespace Velkavo.Core

open Cryptonote Checkpoints

namespace Blockchain

variable (c : HashFunctions) (r : Rules)

def rollbackTo (s : Blockchain) (rollbackHeight : UInt64) : Option Blockchain :=
  let rolled := s.rollbackBlockchainSwitching c r [] rollbackHeight.toNat
  if rollbackHeight.toNat ≤ s.db.length ∧ rolled.db.length ≠ rollbackHeight.toNat then none else some rolled

def checkPoint (points : Points) (enforce : Bool) (blockchainHeight : ℕ) (s : Blockchain) (pt : UInt64 × Hash) :
    Option Blockchain :=
  if pt.1.toNat ≥ blockchainHeight then some s
  else
    match (s.ids c)[pt.1.toNat]? with
    | none => none
    | some id =>
      if (checkBlock points pt.1.toNat id).1 then some s
      else if enforce then s.rollbackTo c r (pt.1 - 2)
      else some s

def checkAgainstCheckpoints (points : Points) (enforce : Bool) (s : Blockchain) : Option Blockchain :=
  points.entries.foldlM (checkPoint c r points enforce s.db.length) s

def Fails (points : Points) (s : Blockchain) (height : UInt64) : Prop :=
  height.toNat < s.db.length ∧ ∃ h, points.find? height = some h ∧ (s.ids c)[height.toNat]? ≠ some h

def Agrees (points : Points) (s : Blockchain) : Prop := ∀ height, ¬s.Fails c points height

def Recoverable (points : Points) (s : Blockchain) : Prop :=
  s.Agrees c points ∨
    ∃ height, s.Fails c points height ∧ 3 ≤ height.toNat ∧
      (∀ height' h, points.find? height' = some h → height'.toNat < s.db.length → height'.toNat ≤ height.toNat) ∧
      ∀ height', s.Fails c points height' → height' = height ∨ height'.toNat = 1 ∧ height.toNat = 3

variable {c r} {points : Points} {s t : Blockchain} {pt : UInt64 × Hash} {n : ℕ}

theorem mem_entries_iff : pt ∈ points.entries ↔ points.find? pt.1 = some pt.2 :=
  OrderedMap.mem_entries_iff (fun _ _ => UInt64.toNat_inj.mp) _ _ _

theorem checkBlock_of_mem (hpt : pt ∈ points.entries) (id : Hash) :
    (checkBlock points pt.1.toNat id).1 = decide (pt.2 = id) := by
  rw [checkBlock, UInt64.ofNat_toNat, mem_entries_iff.mp hpt]

theorem length_ids_eq : (s.ids c).length = s.db.length := List.length_map _

variable {height : UInt64}

theorem rollbackTo_low (hlow : height.toNat < 2) (hlen : s.db.length < 2 ^ 64 - 2) :
    s.rollbackTo c r (height - 2) = some s := by
  have hbig : s.db.length < (height - 2).toNat := by
    rw [UInt64.toNat_sub]
    have htwo : (2 : UInt64).toNat = 2 := rfl
    omega
  rw [rollbackTo, if_neg (by omega), rollbackBlockchainSwitching, if_pos hbig]

theorem rollbackTo_two (htwo : height.toNat = 2) (hlen : 0 < s.db.length) :
    s.rollbackTo c r (height - 2) = none := by
  have hzero : (height - 2).toNat = 0 := by
    rw [UInt64.toNat_sub]
    have htwo' : (2 : UInt64).toNat = 2 := rfl
    omega
  obtain ⟨table, hrolled⟩ := @rollbackBlockchainSwitching_nil c r s 0 hlen (Nat.zero_le _)
  rw [rollbackTo, hzero, hrolled]
  refine if_pos ⟨Nat.zero_le _, ?_⟩
  rw [List.length_take]
  omega

theorem rollbackTo_high {height : UInt64} (hhigh : 3 ≤ height.toNat) (hlt : height.toNat < s.db.length) :
    ∃ table, s.rollbackTo c r (height - 2) =
      some { s with db := s.db.take (height.toNat - 2), blocksLonghashTable := table } := by
  have hsub : (height - 2).toNat = height.toNat - 2 := by
    rw [UInt64.toNat_sub]
    have htwo : (2 : UInt64).toNat = 2 := rfl
    have := height.toNat_lt
    omega
  obtain ⟨table, hrolled⟩ := @rollbackBlockchainSwitching_nil c r s (height.toNat - 2) (by omega) (by omega)
  have hmax : max (height.toNat - 2) 1 = height.toNat - 2 := by omega
  refine ⟨table, ?_⟩
  rw [rollbackTo, hsub, hrolled, hmax]
  refine if_neg fun h => h.2 ?_
  rw [List.length_take]
  omega

theorem checkPoint_found (hpt : pt ∈ points.entries) (hlt : pt.1.toNat < s.db.length) (enforce : Bool) :
    checkPoint c r points enforce s.db.length s pt =
      if (s.ids c)[pt.1.toNat]? = some pt.2 then some s
      else if enforce then s.rollbackTo c r (pt.1 - 2) else some s := by
  have hget := List.getElem?_eq_getElem (length_ids_eq (c := c) (s := s) ▸ hlt)
  rw [checkPoint, if_neg (by omega), hget]
  simp only [checkBlock_of_mem hpt, Option.some_inj, decide_eq_true_eq]
  exact if_congr eq_comm rfl rfl

theorem fails_iff_of_mem (hpt : pt ∈ points.entries) :
    s.Fails c points pt.1 ↔ pt.1.toNat < s.db.length ∧ (s.ids c)[pt.1.toNat]? ≠ some pt.2 := by
  rw [Fails, mem_entries_iff.mp hpt]
  simp

theorem fails_iff :
    s.Fails c points height ↔ ∃ pt ∈ points.entries, pt.1 = height ∧ s.Fails c points pt.1 := by
  constructor
  · rintro h
    obtain ⟨hlt, h', hfind, hne⟩ := h
    exact ⟨(height, h'), mem_entries_iff.mpr hfind, rfl, hlt, h', hfind, hne⟩
  · rintro ⟨pt, -, rfl, h⟩
    exact h

theorem foldlM_quiet {l : List (UInt64 × Hash)} (hl : ∀ pt ∈ l, pt ∈ points.entries)
    (hquiet : ∀ pt ∈ l, s.Fails c points pt.1 → pt.1.toNat < 2) (hlen : s.db.length < 2 ^ 64 - 2) :
    l.foldlM (checkPoint c r points true s.db.length) s = some s := by
  induction l with
  | nil => rfl
  | cons pt l ih =>
    obtain ⟨hpt, hl⟩ := List.forall_mem_cons.mp hl
    obtain ⟨hquiet, hrest⟩ := List.forall_mem_cons.mp hquiet
    have hstep : checkPoint c r points true s.db.length s pt = some s := by
      by_cases hlt : pt.1.toNat < s.db.length
      · rw [checkPoint_found hpt hlt]
        split_ifs with hpass
        · rfl
        · exact rollbackTo_low (hquiet ((fails_iff_of_mem hpt).mpr ⟨hlt, hpass⟩)) hlen
        · rfl
      · exact if_pos (by omega)
    rw [List.foldlM_cons, hstep]
    exact ih hl hrest

theorem foldlM_above {l : List (UInt64 × Hash)} (habove : ∀ pt ∈ l, t.db.length ≤ pt.1.toNat) :
    l.foldlM (checkPoint c r points true n) t = if ∃ pt ∈ l, pt.1.toNat < n then none else some t := by
  induction l with
  | nil => rw [if_neg (by simp)]; rfl
  | cons pt l ih =>
    obtain ⟨hpt, hrest⟩ := List.forall_mem_cons.mp habove
    rw [List.foldlM_cons]
    by_cases hlt : pt.1.toNat < n
    · have hnone : (t.ids c)[pt.1.toNat]? = none := List.getElem?_eq_none (by rw [length_ids_eq]; exact hpt)
      have hstep : checkPoint c r points true n t pt = none := by
        rw [checkPoint, if_neg (by omega), hnone]
      rw [hstep, if_pos ⟨pt, List.mem_cons_self, hlt⟩]
      rfl
    · have hstep : checkPoint c r points true n t pt = some t := if_pos (by omega)
      have hiff : (∃ x ∈ pt :: l, x.1.toNat < n) ↔ ∃ x ∈ l, x.1.toNat < n := by simp [hlt]
      rw [hstep, if_congr hiff rfl rfl]
      exact ih hrest

theorem not_fails_take (hlt : height.toNat < n) (htable : t.db = s.db.take n)
    (h : t.Agrees c points) : ¬s.Fails c points height := by
  rintro ⟨hlen, h', hfind, hne⟩
  refine h height ⟨?_, h', hfind, ?_⟩
  · rw [htable, List.length_take]
    omega
  · rw [ids, htable, List.map_take, List.getElem?_take_of_lt hlt]
    exact hne

theorem agrees_take (htable : t.db = s.db.take n) (h : ∀ height, s.Fails c points height → n ≤ height.toNat) :
    t.Agrees c points := by
  rintro height ⟨hlt, h', hfind, hne⟩
  rw [htable, List.length_take] at hlt
  rw [ids, htable, List.map_take, List.getElem?_take_of_lt (by omega)] at hne
  have hle := h height ⟨by omega, h', hfind, hne⟩
  omega

structure FirstFailure (c : HashFunctions) (points : Points) (s : Blockchain) (before : List (UInt64 × Hash))
    (pt : UInt64 × Hash) (after : List (UInt64 × Hash)) : Prop where
  entries : points.entries = before ++ pt :: after
  fails : s.Fails c points pt.1
  two_le : 2 ≤ pt.1.toNat
  quiet : ∀ x ∈ before, s.Fails c points x.1 → x.1.toNat < 2

theorem quiet_or_firstFailure (c : HashFunctions) (points : Points) (s : Blockchain) :
    (∀ pt ∈ points.entries, s.Fails c points pt.1 → pt.1.toNat < 2) ∨
      ∃ before pt after, FirstFailure c points s before pt after := by
  classical
  cases hfirst : points.entries.find? fun pt => decide (s.Fails c points pt.1 ∧ 2 ≤ pt.1.toNat) with
  | none =>
    refine .inl fun pt hpt hfails => ?_
    have hnot := List.find?_eq_none.mp hfirst pt hpt
    simp only [decide_eq_true_eq, not_and, not_le] at hnot
    exact hnot hfails
  | some pt =>
    obtain ⟨hpt, before, after, hentries, hbefore⟩ := List.find?_eq_some_iff_append.mp hfirst
    obtain ⟨hfails, htwo⟩ := decide_eq_true_eq.mp hpt
    refine .inr ⟨before, pt, after, hentries, hfails, htwo, fun x hx hxfails => ?_⟩
    have hnot := hbefore x hx
    simp only [Bool.not_eq_true', decide_eq_false_iff_not, not_and, not_le] at hnot
    exact hnot hxfails

namespace FirstFailure

variable {before after : List (UInt64 × Hash)}

theorem mem (h : FirstFailure c points s before pt after) : pt ∈ points.entries := by
  rw [h.entries]
  simp

theorem lt_of_mem (h : FirstFailure c points s before pt after) {x : UInt64 × Hash} (hx : x ∈ after) :
    pt.1.toNat < x.1.toNat := by
  have hsorted := points.sorted
  rw [h.entries, List.pairwise_append, List.pairwise_cons] at hsorted
  exact hsorted.2.1.1 x hx

theorem le_or_mem (h : FirstFailure c points s before pt after) {x : UInt64 × Hash} (hx : x ∈ points.entries) :
    x.1.toNat ≤ pt.1.toNat ∨ x ∈ after := by
  have hsorted := points.sorted
  rw [h.entries, List.pairwise_append] at hsorted
  rw [h.entries, List.mem_append, List.mem_cons] at hx
  rcases hx with hx | rfl | hx
  · exact .inl (hsorted.2.2 x hx pt List.mem_cons_self).le
  · exact .inl le_rfl
  · exact .inr hx

theorem run_eq (h : FirstFailure c points s before pt after) (hlen : s.db.length < 2 ^ 64 - 2) :
    s.checkAgainstCheckpoints c r points true =
      (s.rollbackTo c r (pt.1 - 2)).bind fun t => after.foldlM (checkPoint c r points true s.db.length) t := by
  have hbefore : ∀ x ∈ before, x ∈ points.entries := fun x hx => by
    rw [h.entries]
    exact List.mem_append_left _ hx
  have hstep : checkPoint c r points true s.db.length s pt = s.rollbackTo c r (pt.1 - 2) := by
    rw [checkPoint_found h.mem h.fails.1, if_neg ((fails_iff_of_mem h.mem).mp h.fails).2, if_pos rfl]
  rw [checkAgainstCheckpoints, h.entries, List.foldlM_append, foldlM_quiet hbefore h.quiet hlen]
  change (pt :: after).foldlM (checkPoint c r points true s.db.length) s = _
  rw [List.foldlM_cons, hstep]
  rfl

theorem run_cases (h : FirstFailure c points s before pt after) (hlen : s.db.length < 2 ^ 64 - 2) :
    (pt.1.toNat = 2 ∨ ∃ x ∈ after, x.1.toNat < s.db.length) ∧ s.checkAgainstCheckpoints c r points true = none ∨
      3 ≤ pt.1.toNat ∧ (∀ x ∈ after, s.db.length ≤ x.1.toNat) ∧
        ∃ t, s.checkAgainstCheckpoints c r points true = some t ∧ t.db = s.db.take (pt.1.toNat - 2) := by
  have htwo := h.two_le
  have hlt := h.fails.1
  rw [h.run_eq hlen]
  by_cases heq : pt.1.toNat = 2
  · rw [rollbackTo_two heq (by omega)]
    exact .inl ⟨.inl heq, rfl⟩
  · obtain ⟨table, hrolled⟩ := @rollbackTo_high c r s pt.1 (by omega) hlt
    have habove : ∀ x ∈ after, (s.db.take (pt.1.toNat - 2)).length ≤ x.1.toNat := by
      intro x hx
      have := h.lt_of_mem hx
      rw [List.length_take]
      omega
    rw [hrolled, Option.bind_some, foldlM_above habove]
    split_ifs with hlater
    · exact .inl ⟨.inr hlater, rfl⟩
    · push Not at hlater
      exact .inr ⟨by omega, hlater, _, rfl, rfl⟩

theorem not_recoverable (h : FirstFailure c points s before pt after)
    (hstops : pt.1.toNat = 2 ∨ ∃ x ∈ after, x.1.toNat < s.db.length) : ¬s.Recoverable c points := by
  have htwo := h.two_le
  rintro (hagrees | ⟨height, -, hhigh, htop, honly⟩)
  · exact hagrees _ h.fails
  rcases honly _ h.fails with rfl | ⟨hone, -⟩
  · rcases hstops with heq | ⟨x, hx, hxlt⟩
    · omega
    · have hbelow := h.lt_of_mem hx
      have hmem : x ∈ points.entries := by
        rw [h.entries]
        simp [hx]
      have hle := htop x.1 x.2 (mem_entries_iff.mp hmem) hxlt
      omega
  · omega

theorem recoverable_iff (h : FirstFailure c points s before pt after) (hhigh : 3 ≤ pt.1.toNat)
    (hafter : ∀ x ∈ after, s.db.length ≤ x.1.toNat) (ht : t.db = s.db.take (pt.1.toNat - 2)) :
    t.Agrees c points ↔ s.Recoverable c points := by
  constructor
  · intro hagrees
    refine .inr ⟨pt.1, h.fails, hhigh, fun height' h' hfind hlt => ?_, fun height hheight => ?_⟩
    · rcases h.le_or_mem (mem_entries_iff.mpr hfind : (height', h') ∈ points.entries) with hle | hx
      · exact hle
      · have hle : s.db.length ≤ height'.toNat := hafter _ hx
        omega
    · obtain ⟨x, hx, rfl, hxfails⟩ := fails_iff.mp hheight
      have hlow : pt.1.toNat - 2 ≤ x.1.toNat := by
        by_contra hlt
        exact not_fails_take (by omega) ht hagrees hxfails
      rw [h.entries, List.mem_append, List.mem_cons] at hx
      rcases hx with hx | rfl | hx
      · have := h.quiet x hx hxfails
        exact .inr (by omega)
      · exact .inl rfl
      · have := hafter x hx
        have := hxfails.1
        omega
  · intro hrecover
    refine agrees_take ht fun height hheight => ?_
    rcases hrecover with hagrees | ⟨height', -, -, htop, honly⟩
    · exact absurd hheight (hagrees _)
    have hle := htop pt.1 pt.2 (mem_entries_iff.mp h.mem) h.fails.1
    have heq : pt.1 = height' := (honly _ h.fails).resolve_right fun h => by omega
    rw [heq]
    rcases honly _ hheight with rfl | ⟨hone, hthree⟩ <;> omega

end FirstFailure

theorem checkAgainstCheckpoints_iff (c : HashFunctions) (r : Rules) (points : Points) (s : Blockchain)
    (hlen : s.db.length < 2 ^ 64 - 2) :
    (∃ t, s.checkAgainstCheckpoints c r points true = some t ∧ t.db <+: s.db ∧ t.Agrees c points) ↔
      s.Recoverable c points := by
  rcases quiet_or_firstFailure c points s with hquiet | ⟨before, pt, after, h⟩
  · have hsame : s.checkAgainstCheckpoints c r points true = some s := foldlM_quiet (fun _ h => h) hquiet hlen
    rw [hsame]
    constructor
    · rintro ⟨t, ht, -, hagrees⟩
      cases ht
      exact .inl hagrees
    · rintro (hagrees | ⟨height, hfails, hhigh, -⟩)
      · exact ⟨s, rfl, List.prefix_rfl, hagrees⟩
      · obtain ⟨pt, hpt, rfl, hpfails⟩ := fails_iff.mp hfails
        have := hquiet pt hpt hpfails
        omega
  · rcases h.run_cases (r := r) hlen with ⟨hstops, hnone⟩ | ⟨hhigh, hafter, t, ht, htake⟩
    · refine iff_of_false (fun hex => ?_) (h.not_recoverable hstops)
      obtain ⟨t, ht, -⟩ := hex
      cases hnone.symm.trans ht
    · rw [← h.recoverable_iff hhigh hafter htake]
      constructor
      · rintro ⟨t', ht', -, hagrees⟩
        cases ht.symm.trans ht'
        exact hagrees
      · intro hagrees
        exact ⟨t, ht, htake ▸ List.take_prefix _ _, hagrees⟩

section

open Longhash202612

def wrongAt (heights : List UInt64) : Points := heights.foldl (fun points height => points.assign height nullHash) ∅

theorem checkAgainstCheckpoints_iff_top : ∃ t,
    (climbed 6).checkAgainstCheckpoints hashes rules (wrongAt [5]) true = some t ∧ t.db <+: (climbed 6).db ∧ t.Agrees hashes (wrongAt [5]) := by
  have hfind : ∀ height h, (wrongAt [5]).find? height = some h → height = 5 := by
    intro height h hfind
    obtain ⟨k, hmem, hk⟩ := (OrderedMap.find?_eq_some_iff _ _ _).mp hfind
    have hpt : (k, h) = (5, nullHash) := List.mem_singleton.mp hmem
    cases hpt
    exact (UInt64.toNat_inj.mp hk).symm
  refine (checkAgainstCheckpoints_iff hashes rules (wrongAt [5]) (climbed 6) (by decide)).mpr
    (.inr ⟨5, ⟨by decide, nullHash, rfl, by decide +kernel⟩, by decide, fun height' h h' _ => ?_, fun height' h' => ?_⟩)
  · rw [hfind height' h h']
  · obtain ⟨-, h, hh, -⟩ := h'
    exact .inl (hfind height' h hh)

theorem checkAgainstCheckpoints_fails :
    (climbed 6).checkAgainstCheckpoints hashes rules (wrongAt [3, 4]) true = none ∧
      (climbed 6).checkAgainstCheckpoints hashes rules (wrongAt [2]) true = none ∧
      ∃ t, (climbed 6).checkAgainstCheckpoints hashes rules (wrongAt [0, 1]) true = some t ∧
        ¬t.Agrees hashes (wrongAt [0, 1]) := by
  have hisNone : ((climbed 6).checkAgainstCheckpoints hashes rules (wrongAt [3, 4]) true).isNone = true ∧
      ((climbed 6).checkAgainstCheckpoints hashes rules (wrongAt [2]) true).isNone = true := by
    decide +kernel
  have hids : ((climbed 6).checkAgainstCheckpoints hashes rules (wrongAt [0, 1]) true).map
      (fun t => (t.db.length, (t.ids hashes)[0]?)) = some (6, some (pad (ByteCodec.littleEndian 4 0))) := by
    decide +kernel
  obtain ⟨t, ht, hvalue⟩ := Option.map_eq_some_iff.mp hids
  obtain ⟨hlen, hget⟩ := Prod.mk.inj hvalue
  refine ⟨Option.isNone_iff_eq_none.mp hisNone.1, Option.isNone_iff_eq_none.mp hisNone.2, t, ht, fun hagrees => ?_⟩
  refine hagrees 0 ⟨by rw [hlen]; decide, nullHash, rfl, ?_⟩
  change (t.ids hashes)[0]? ≠ some nullHash
  rw [hget]
  decide

end

end Blockchain

end Velkavo.Core
