import Velkavo.ByteCodec.Text
import Velkavo.Containers.OrderedMap
import Velkavo.Cryptonote.Basic

namespace Velkavo.Checkpoints

open ByteCodec Cryptonote

abbrev StringSet := OrderedMap stringOrder Unit

def StringSet.toList (s : StringSet) : List Bytes := s.entries.map Prod.fst

def StringSet.ofList (l : List Bytes) : StringSet := l.foldl (fun s t => s.assign t ()) ∅

def StringSet.order (s : StringSet) : List (List ℕ) := s.toList.map stringOrder

structure Answer where
  avail : Bool
  valid : Bool
  records : List Bytes

abbrev Resolver := Bytes → Answer

def Answer.kept (a : Answer) : StringSet :=
  if a.avail && a.valid then StringSet.ofList a.records else ∅

abbrev RecordCount := OrderedMap StringSet.order ℕ

def countRecords (records : List StringSet) : RecordCount :=
  records.foldl
    (fun count e => if e.entries.isEmpty then count else count.assign e ((count.find? e).getD 0 + 1)) ∅

def goodRecord (count : RecordCount) : Option (StringSet × ℕ) :=
  count.entries.foldl
    (fun good i =>
      match good with
      | none => some i
      | some g => if i.2 > g.2 then some i else some g) none

def loadTxtRecordsFromDns (resolver : Resolver) (dnsUrls : List Bytes) : Option (List Bytes) :=
  if dnsUrls = [] then none
  else
    let records := dnsUrls.map fun url => (resolver url).kept
    let numValidRecords := records.countP fun e => !e.entries.isEmpty
    if numValidRecords < 2 then none
    else
      match goodRecord (countRecords records) with
      | none => none
      | some (good, count) => if count < dnsUrls.length / 2 + 1 then none else some good.toList

abbrev Points := OrderedMap UInt64.toNat Hash

def addCheckpoint (points : Points) (height : UInt64) (hashStr : Bytes) : Option Points := do
  let h ← Blob.ofHex? 32 hashStr
  match points.find? height with
  | some old => if h = old then some (points.assign height h) else none
  | none => some (points.assign height h)

def parseRecord (record : Bytes) : Option (UInt64 × Bytes) :=
  match record.dropWhile (· ≠ 0x3a) with
  | [] => none
  | _ :: hashStr => do
    let height ← extractUInt64 (record.takeWhile (· ≠ 0x3a))
    let _ ← Blob.ofHex? 32 hashStr
    pure (height, hashStr)

def addRecords (points : Points) : List Bytes → Bool × Points
  | [] => (true, points)
  | record :: rest =>
    match parseRecord record with
    | none => addRecords points rest
    | some (height, hashStr) =>
      match addCheckpoint points height hashStr with
      | none => (false, points)
      | some points => addRecords points rest

def mainPulse : Bytes := ascii "checkpoints.velkavopulse.se"

def mainVelkavo : Bytes := ascii "checkpoints.velkavo.com"

def dnsUrls : NetworkType → List Bytes
  | .testnet => [ascii "testpoints.velkavopulse.se", ascii "testpoints.velkavo.com",
      ascii "testpoints.velkavo.com", ascii "testpoints.velkavo.com"]
  | .stagenet => [ascii "stagenetpoints.velkavopulse.se", ascii "stagenetpoints.velkavopulse.org",
      ascii "stagenetpoints.velkavopulse.net", ascii "stagenetpoints.velkavopulse.co"]
  | _ => [mainPulse, mainVelkavo, mainVelkavo, mainVelkavo]

def loadCheckpointsFromDns (resolver : Resolver) (nettype : NetworkType) (points : Points) :
    Bool × Points :=
  match loadTxtRecordsFromDns resolver (dnsUrls nettype) with
  | none => (true, points)
  | some records => addRecords points records

theorem StringSet.toList_eq_of_order {s t : StringSet} (h : s.order = t.order) : s.toList = t.toList :=
  List.map_injective_iff.mpr stringOrder_injective h

theorem StringSet.isEmpty_iff (s : StringSet) : s.entries.isEmpty = true ↔ s.toList = [] := by
  rw [toList, List.map_eq_nil_iff, List.isEmpty_iff]

def occurrences (records : List StringSet) (e : StringSet) : ℕ :=
  records.countP fun r => decide (e.order = r.order)

theorem occurrences_append (l l' : List StringSet) (e : StringSet) :
    occurrences (l ++ l') e = occurrences l e + occurrences l' e := List.countP_append

theorem find?_countRecords (records : List StringSet) (e : StringSet) (n : ℕ) :
    (countRecords records).find? e = some n ↔ e.toList ≠ [] ∧ 0 < n ∧ n = occurrences records e := by
  induction records using List.reverseRecOn generalizing e n with
  | nil =>
    refine iff_of_false (by simp [countRecords]) ?_
    rintro ⟨-, hpos, rfl⟩
    exact absurd hpos (Nat.lt_irrefl 0)
  | append_singleton l r ih =>
    rw [occurrences_append]
    have hstep : countRecords (l ++ [r]) = if r.entries.isEmpty then countRecords l
        else (countRecords l).assign r (((countRecords l).find? r).getD 0 + 1) := by
      simp [countRecords]
    have hone : occurrences [r] e = if e.order = r.order then 1 else 0 := by
      simp [occurrences, List.countP_cons]
    rw [hstep, hone]
    split_ifs with hempty he he
    · have hr : e.toList = [] := by
        rw [StringSet.toList_eq_of_order he]
        exact (StringSet.isEmpty_iff r).mp hempty
      simp [ih, hr]
    · rw [ih, Nat.add_zero]
    · have hr : r.toList ≠ [] := fun h => hempty ((StringSet.isEmpty_iff r).mpr h)
      have hcount : ((countRecords l).find? r).getD 0 = occurrences l r := by
        cases hf : (countRecords l).find? r with
        | none =>
          by_contra hne
          have hpos : 0 < occurrences l r := Nat.pos_of_ne_zero (Ne.symm hne)
          rw [(ih r _).mpr ⟨hr, hpos, rfl⟩] at hf
          cases hf
        | some m => exact ((ih r m).mp hf).2.2
      have hocc : occurrences l e = occurrences l r := by rw [occurrences, occurrences, he]
      rw [OrderedMap.find?_assign, if_pos he, hcount, hocc, Option.some_inj, StringSet.toList_eq_of_order he]
      constructor
      · rintro rfl
        exact ⟨hr, Nat.succ_pos _, rfl⟩
      · exact fun h => h.2.2.symm
    · rw [OrderedMap.find?_assign, if_neg he, ih, Nat.add_zero]

def IsGreatest (l : List (StringSet × ℕ)) : Option (StringSet × ℕ) → Prop
  | none => l = []
  | some g => g ∈ l ∧ ∀ i ∈ l, i.2 ≤ g.2

theorem goodRecord_isGreatest (count : RecordCount) : IsGreatest count.entries (goodRecord count) := by
  rw [goodRecord]
  induction count.entries using List.reverseRecOn with
  | nil => rfl
  | append_singleton l i ih =>
    rw [List.foldl_append, List.foldl_cons, List.foldl_nil]
    generalize List.foldl _ none l = good at ih
    cases good with
    | none =>
      have hl : l = [] := ih
      simp [IsGreatest, hl]
    | some g =>
      obtain ⟨hmem, hmax⟩ := ih
      dsimp only
      split_ifs with hlt
      · refine ⟨by simp, fun j hj => ?_⟩
        rcases List.mem_append.mp hj with hj | hj
        · exact (hmax j hj).trans hlt.le
        · rw [List.mem_singleton.mp hj]
      · refine ⟨by simp [hmem], fun j hj => ?_⟩
        rcases List.mem_append.mp hj with hj | hj
        · exact hmax j hj
        · rw [List.mem_singleton.mp hj]
          exact not_lt.mp hlt

theorem occurrences_add_le (records : List StringSet) {e e' : StringSet} (h : e.order ≠ e'.order) :
    occurrences records e + occurrences records e' ≤ records.length := by
  induction records with
  | nil => simp [occurrences]
  | cons r l ih =>
    simp only [occurrences, List.countP_cons, List.length_cons, decide_eq_true_eq] at ih ⊢
    split_ifs with h1 h2
    · exact absurd (h1.trans h2.symm) h
    all_goals omega

theorem occurrences_le_countP (records : List StringSet) {e : StringSet} (he : e.toList ≠ []) :
    occurrences records e ≤ records.countP fun e => !e.entries.isEmpty := by
  refine List.countP_mono_left fun r _ hr => ?_
  have horder : e.order = r.order := of_decide_eq_true hr
  have hne : r.toList ≠ [] := StringSet.toList_eq_of_order horder ▸ he
  rw [Bool.not_eq_true', ← Bool.not_eq_true, StringSet.isEmpty_iff]
  exact hne

theorem loadTxtRecordsFromDns_eq_some (resolver : Resolver) (urls : List Bytes) (rs : List Bytes) :
    loadTxtRecordsFromDns resolver urls = some rs ↔
      2 ≤ urls.length ∧ ∃ e : StringSet, e.toList ≠ [] ∧ rs = e.toList ∧
        urls.length / 2 + 1 ≤ occurrences (urls.map fun url => (resolver url).kept) e := by
  set records := urls.map fun url => (resolver url).kept with hrecords
  have hlen : records.length = urls.length := by rw [hrecords, List.length_map]
  have hgreatest := goodRecord_isGreatest (countRecords records)
  have hentry : ∀ i ∈ (countRecords records).entries,
      i.1.toList ≠ [] ∧ 0 < i.2 ∧ i.2 = occurrences records i.1 := fun i hi =>
    (find?_countRecords records i.1 i.2).mp ((OrderedMap.find?_eq_some_iff _ _ _).mpr ⟨i.1, hi, rfl⟩)
  rw [loadTxtRecordsFromDns, ← hrecords]
  dsimp only
  constructor
  · intro h
    split_ifs at h with hnil hvalid
    cases hgood : goodRecord (countRecords records) with
    | none => rw [hgood] at h; cases h
    | some g =>
      rw [hgood] at h hgreatest
      dsimp only at h
      split_ifs at h with hcount
      obtain ⟨hne, -, hocc⟩ := hentry g hgreatest.1
      have hle : records.countP (fun e => !e.entries.isEmpty) ≤ records.length := List.countP_le_length
      exact ⟨by omega, g.1, hne, (Option.some.inj h).symm, by omega⟩
  · rintro ⟨htwo, e, hne, rfl, hmajority⟩
    have hvalid := occurrences_le_countP records hne
    have hfind := (find?_countRecords records e _).mpr ⟨hne, by omega, rfl⟩
    obtain ⟨k, hk, hke⟩ := (OrderedMap.find?_eq_some_iff _ _ _).mp hfind
    have hnil : urls ≠ [] := by rintro rfl; exact absurd htwo (by decide)
    rw [if_neg hnil, if_neg (by omega)]
    cases hgood : goodRecord (countRecords records) with
    | none =>
      rw [hgood] at hgreatest
      have hl : (countRecords records).entries = [] := hgreatest
      rw [hl] at hk
      cases hk
    | some g =>
      rw [hgood] at hgreatest
      have hmax : occurrences records e ≤ g.2 := hgreatest.2 _ hk
      have hocc := (hentry g hgreatest.1).2.2
      -- two different sets cannot both be returned by more than half of the names
      have hsame : g.1.order = e.order := by
        by_contra hdiff
        have := occurrences_add_le records hdiff
        omega
      dsimp only
      rw [if_neg (by omega), StringSet.toList_eq_of_order hsame]

end Velkavo.Checkpoints
