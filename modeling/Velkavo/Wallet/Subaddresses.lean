import Velkavo.Containers.UnorderedMap
import Velkavo.Effects.Runs
import Mathlib.Data.UInt

/-! The table of the subaddresses a wallet scans for (wallet2.cpp), and its growth by whole accounts and by single indices. -/

namespace Velkavo.Wallet

structure SubaddressIndex where
  major : UInt32
  minor : UInt32
  deriving DecidableEq

def uint32Max : UInt32 := 0xffffffff

structure Subaddresses (κ : Type) where
  labels : List (List String)
  subaddresses : UnorderedMap κ SubaddressIndex

def getSubaddressClampedSum (idx extra : UInt32) : UInt32 :=
  if idx > uint32Max - extra then uint32Max else idx + extra

def resize {α : Type} (l : List α) (n : ℕ) (x : α) : List α := l.take n ++ List.replicate (n - l.length) x

/-- Resized just big enough that the index is present, the new size a sum of 32 bits also where size_t has 64. -/
def reach {α : Type} (l : List α) (i : UInt32) (x : α) : List α := if l.length ≤ i.toNat then resize l (i + 1).toNat x else l

def expandLabels (labels : List (List String)) (index : SubaddressIndex) : Option (List (List String)) :=
  let labels := reach labels index.major ["Untitled account"]
  (labels[index.major.toNat]?).map fun account => labels.set index.major.toNat (reach account index.minor "")

def lowestMissing (all : List SubaddressIndex) (major : UInt32) : ℕ → UInt32 → UInt32
  | 0, minor => minor
  | turns + 1, minor =>
    if ⟨major, minor⟩ ∈ all ∧ minor < uint32Max then lowestMissing all major turns (minor + 1) else minor

def minorBegin (all : List SubaddressIndex) (major : UInt32) : UInt32 :=
  if all.any (·.major = major) then lowestMissing all major all.length 0 else 0

def labelBase (size : ℕ) : UInt32 := (if UInt32.ofNat size < 1 then 1 else UInt32.ofNat size) - 1

section

variable (lookaheadMajor lookaheadMinor : UInt32)

def majorEnd (labels : List (List String)) : UInt32 := getSubaddressClampedSum (labelBase labels.length) lookaheadMajor

def minorEnd (labels : List (List String)) (major : UInt32) : UInt32 :=
  getSubaddressClampedSum (labelBase (((labels[major.toNat]?).map List.length).getD 0)) lookaheadMinor

def generated (labels : List (List String)) (all : List SubaddressIndex) : List SubaddressIndex :=
  (List.range (majorEnd lookaheadMajor labels).toNat).flatMap fun n =>
    let major := UInt32.ofNat n
    (List.range' (minorBegin all major).toNat
      ((minorEnd lookaheadMinor labels major).toNat - (minorBegin all major).toNat)).map fun m => ⟨major, UInt32.ofNat m⟩

variable {κ : Type} [DecidableEq κ] (spendPublicKey : SubaddressIndex ↪ κ)

def register (m : UnorderedMap κ SubaddressIndex) (index : SubaddressIndex) : UnorderedMap κ SubaddressIndex :=
  m.upsert (spendPublicKey index) fun _ => index

def expandSubaddresses (s : Subaddresses κ) (index : SubaddressIndex) : Option (Subaddresses κ) :=
  (expandLabels s.labels index).map fun labels =>
    ⟨labels, (generated lookaheadMajor lookaheadMinor labels (s.subaddresses.entries.map Prod.snd)).foldl
      (register spendPublicKey) s.subaddresses⟩

def addSubaddressAccount (s : Subaddresses κ) (label : String) : Option (Subaddresses κ) :=
  let indexMajor := UInt32.ofNat s.labels.length
  (expandSubaddresses lookaheadMajor lookaheadMinor spendPublicKey s ⟨indexMajor, 0⟩).map fun s =>
    { s with labels := s.labels.modify indexMajor.toNat (·.set 0 label) }

def createOneOffSubaddress (s : Subaddresses κ) (index : SubaddressIndex) : Subaddresses κ :=
  { s with subaddresses := register spendPublicKey s.subaddresses index }

inductive SubaddressCall where
  | expandSubaddresses (index : SubaddressIndex)
  | addSubaddressAccount (label : String)
  | createOneOffSubaddress (index : SubaddressIndex)

def SubaddressCall.apply (s : Subaddresses κ) : SubaddressCall → Option (Subaddresses κ)
  | .expandSubaddresses index => Wallet.expandSubaddresses lookaheadMajor lookaheadMinor spendPublicKey s index
  | .addSubaddressAccount label => Wallet.addSubaddressAccount lookaheadMajor lookaheadMinor spendPublicKey s label
  | .createOneOffSubaddress index => some (Wallet.createOneOffSubaddress spendPublicKey s index)

def subaddressesAfter (calls : List SubaddressCall) : Option (Subaddresses κ) :=
  calls.foldlM (SubaddressCall.apply lookaheadMajor lookaheadMinor spendPublicKey) ⟨[], ∅⟩

structure Expanded (s : Subaddresses κ) (index : SubaddressIndex) : Prop where
  scanned : ∀ i < majorEnd lookaheadMajor s.labels, ∀ j < minorEnd lookaheadMinor s.labels i,
    s.subaddresses.find? (spendPublicKey ⟨i, j⟩) = some ⟨i, j⟩
  majors : getSubaddressClampedSum index.major lookaheadMajor ≤ majorEnd lookaheadMajor s.labels
  minors : getSubaddressClampedSum index.minor lookaheadMinor ≤ minorEnd lookaheadMinor s.labels index.major
  own : ∀ key i, s.subaddresses.find? key = some i → key = spendPublicKey i
  labelled : ∃ account, s.labels[index.major.toNat]? = some account ∧ index.minor.toNat < account.length

end

section

theorem toNat_getSubaddressClampedSum (idx extra : UInt32) :
    (getSubaddressClampedSum idx extra).toNat = min (idx.toNat + extra.toNat) (2 ^ 32 - 1) := by
  have hmax : uint32Max.toNat = 2 ^ 32 - 1 := rfl
  have hidx := idx.toNat_lt
  have hextra := extra.toNat_lt
  have hsub : (uint32Max - extra).toNat = 2 ^ 32 - 1 - extra.toNat := by
    rw [UInt32.toNat_sub_of_le _ _ (UInt32.le_iff_toNat_le.mpr (by omega)), hmax]
  rw [getSubaddressClampedSum]
  split_ifs with hlt
  · have hlt := UInt32.lt_iff_toNat_lt.mp hlt
    omega
  · have hle := UInt32.le_iff_toNat_le.mp (UInt32.not_lt.mp hlt)
    rw [UInt32.toNat_add]
    omega

theorem toNat_labelBase {size : ℕ} (h : size < 2 ^ 32) : (labelBase size).toNat = size - 1 := by
  have hsize : (UInt32.ofNat size).toNat = size := UInt32.toNat_ofNat_of_lt' h
  have hone : (1 : UInt32).toNat = 1 := rfl
  rw [labelBase]
  split_ifs with hlt
  · have hlt := UInt32.lt_iff_toNat_lt.mp hlt
    rw [show (1 : UInt32) - 1 = 0 from rfl, show (0 : UInt32).toNat = 0 from rfl]
    omega
  · have hle := UInt32.not_lt.mp hlt
    rw [UInt32.toNat_sub_of_le _ _ hle, hsize, hone]

theorem clampedSum_le_of_le {a b : UInt32} (extra : UInt32) (h : a.toNat ≤ b.toNat) :
    getSubaddressClampedSum a extra ≤ getSubaddressClampedSum b extra := by
  apply UInt32.le_iff_toNat_le.mpr
  rw [toNat_getSubaddressClampedSum, toNat_getSubaddressClampedSum]
  omega

@[simp]
theorem length_resize {α : Type} (l : List α) (n : ℕ) (x : α) : (resize l n x).length = n := by
  simp only [resize, List.length_append, List.length_take, List.length_replicate]
  omega

section

variable {α : Type} {l : List α} {i : UInt32} {x : α}

theorem lt_length_reach (h : i < uint32Max) : i.toNat < (reach l i x).length := by
  have hlt : i.toNat < 2 ^ 32 - 1 := UInt32.lt_iff_toNat_lt.mp h
  rw [reach]
  split_ifs with hle
  · rw [length_resize, UInt32.toNat_add, show (1 : UInt32).toNat = 1 from rfl]
    omega
  · exact Nat.lt_of_not_le hle

theorem length_reach_max (hl : l.length < 2 ^ 32) (h : ¬i < uint32Max) : (reach l i x).length = 0 := by
  have hle : 2 ^ 32 - 1 ≤ i.toNat := UInt32.le_iff_toNat_le.mp (UInt32.not_lt.mp h)
  have hlt := i.toNat_lt
  have hi : i.toNat = 2 ^ 32 - 1 := by omega
  rw [reach, if_pos (by omega), length_resize, UInt32.toNat_add, hi]
  rfl

theorem length_reach_lt (hl : l.length < 2 ^ 32) : (reach l i x).length < 2 ^ 32 := by
  rw [reach]
  split_ifs
  · rw [length_resize]
    exact (i + 1).toNat_lt
  · exact hl

theorem mem_of_mem_reach {y : α} (h : y ∈ reach l i x) : y ∈ l ∨ y = x := by
  rw [reach] at h
  split_ifs at h
  · rcases List.mem_append.mp h with hold | hnew
    · exact Or.inl (List.mem_of_mem_take hold)
    · exact Or.inr (List.eq_of_mem_replicate hnew)
  · exact Or.inl h

end

def Sized (labels : List (List String)) : Prop := labels.length < 2 ^ 32 ∧ ∀ account ∈ labels, account.length < 2 ^ 32

variable {labels labels' : List (List String)} {index : SubaddressIndex}

theorem Sized.reach (h : Sized labels) (i : UInt32) : Sized (reach labels i ["Untitled account"]) := by
  refine ⟨length_reach_lt h.1, fun account hmem => ?_⟩
  rcases mem_of_mem_reach hmem with hold | rfl
  · exact h.2 account hold
  · exact (by decide : 1 < 2 ^ 32)

theorem Sized.expandLabels (h : Sized labels) (hexpand : expandLabels labels index = some labels') : Sized labels' := by
  obtain ⟨account, haccount, rfl⟩ := Option.map_eq_some_iff.mp hexpand
  have hsized := h.reach index.major
  refine ⟨by rw [List.length_set]; exact hsized.1, fun other hmem => ?_⟩
  rcases List.mem_or_eq_of_mem_set hmem with hold | rfl
  · exact hsized.2 other hold
  · exact length_reach_lt (hsized.2 account (List.mem_of_getElem? haccount))

theorem expandLabels_reaches (labels : List (List String)) (hmajor : index.major < uint32Max) (hminor : index.minor < uint32Max) :
    ∃ labels', expandLabels labels index = some labels' ∧
      ∃ account, labels'[index.major.toNat]? = some account ∧ index.minor.toNat < account.length := by
  have hlen := lt_length_reach (l := labels) (x := ["Untitled account"]) hmajor
  simp only [expandLabels, List.getElem?_eq_getElem hlen, Option.map_some]
  exact ⟨_, rfl, _, List.getElem?_set_self hlen, lt_length_reach hminor⟩

theorem not_reaches_of_max (h : Sized labels) (hmax : ¬(index.major < uint32Max ∧ index.minor < uint32Max))
    (hexpand : expandLabels labels index = some labels') :
    ¬∃ account, labels'[index.major.toNat]? = some account ∧ index.minor.toNat < account.length := by
  obtain ⟨account, haccount, rfl⟩ := Option.map_eq_some_iff.mp hexpand
  have hlen := (List.getElem?_eq_some_iff.mp haccount).1
  have hmajor : index.major < uint32Max := by
    by_contra hge
    rw [length_reach_max h.1 hge] at hlen
    exact Nat.not_lt_zero _ hlen
  have hempty : (reach account index.minor "").length = 0 := by
    refine length_reach_max ?_ fun hminor => hmax ⟨hmajor, hminor⟩
    exact (h.reach index.major).2 account (List.mem_of_getElem? haccount)
  rintro ⟨_, hset, hlt⟩
  rw [List.getElem?_set_self hlen] at hset
  rw [← Option.some_inj.mp hset, hempty] at hlt
  exact Nat.not_lt_zero _ hlt

end

section

variable {lookaheadMajor lookaheadMinor : UInt32} {κ : Type} [DecidableEq κ] {spendPublicKey : SubaddressIndex ↪ κ}
  {m : UnorderedMap κ SubaddressIndex}

def Own (spendPublicKey : SubaddressIndex ↪ κ) (m : UnorderedMap κ SubaddressIndex) : Prop :=
  ∀ key i, m.find? key = some i → key = spendPublicKey i

theorem Own.register (h : Own spendPublicKey m) (index : SubaddressIndex) : Own spendPublicKey (register spendPublicKey m index) := by
  intro key i hfind
  rw [Wallet.register, UnorderedMap.find?_upsert] at hfind
  split_ifs at hfind with hkey
  · rw [hkey, Option.some_inj.mp hfind]
  · exact h key i hfind

theorem Own.foldl_register (h : Own spendPublicKey m) (l : List SubaddressIndex) :
    Own spendPublicKey (l.foldl (Wallet.register spendPublicKey) m) := by
  induction l generalizing m with
  | nil => exact h
  | cons index l ih => exact ih (h.register index)

theorem find?_foldl_register (l : List SubaddressIndex) (i : SubaddressIndex) :
    (l.foldl (register spendPublicKey) m).find? (spendPublicKey i) =
      if i ∈ l then some i else m.find? (spendPublicKey i) := by
  induction l generalizing m with
  | nil => rfl
  | cons index l ih =>
    rw [List.foldl_cons, ih, register, UnorderedMap.find?_upsert]
    by_cases hl : i ∈ l
    · rw [if_pos hl, if_pos (List.mem_cons_of_mem _ hl)]
    · by_cases hi : i = index
      · rw [if_neg hl, hi, if_pos rfl, if_pos List.mem_cons_self]
      · rw [if_neg hl, if_neg fun hkey => hi (spendPublicKey.injective hkey)]
        rw [if_neg fun hmem => (List.mem_cons.mp hmem).elim hi hl]

theorem mem_of_lt_lowestMissing (all : List SubaddressIndex) (major : UInt32) (turns : ℕ) (minor : UInt32) {j : UInt32}
    (hle : minor ≤ j) (hlt : j < lowestMissing all major turns minor) : ⟨major, j⟩ ∈ all := by
  induction turns generalizing minor with
  | zero => exact absurd hlt (UInt32.not_lt.mpr hle)
  | succ turns ih =>
    rw [lowestMissing] at hlt
    split_ifs at hlt with hfound
    · by_cases hj : minor = j
      · exact hj ▸ hfound.1
      · apply ih (minor + 1) _ hlt
        apply UInt32.le_iff_toNat_le.mpr
        have hmax : minor.toNat < 2 ^ 32 - 1 := UInt32.lt_iff_toNat_lt.mp hfound.2
        rw [UInt32.toNat_add, show (1 : UInt32).toNat = 1 from rfl]
        have hne : minor.toNat ≠ j.toNat := fun heq => hj (UInt32.toNat_inj.mp heq)
        have hle := UInt32.le_iff_toNat_le.mp hle
        omega
    · exact absurd hlt (UInt32.not_lt.mpr hle)

theorem mem_of_lt_minorBegin {all : List SubaddressIndex} {major j : UInt32} (h : j < minorBegin all major) :
    ⟨major, j⟩ ∈ all := by
  rw [minorBegin] at h
  split_ifs at h
  · exact mem_of_lt_lowestMissing all major _ 0 (UInt32.le_iff_toNat_le.mpr (Nat.zero_le _)) h
  · exact absurd h (UInt32.not_lt.mpr (UInt32.le_iff_toNat_le.mpr (Nat.zero_le _)))

theorem mem_generated {labels : List (List String)} {all : List SubaddressIndex} {i j : UInt32}
    (hi : i < majorEnd lookaheadMajor labels) (hj : j < minorEnd lookaheadMinor labels i) (hbegin : minorBegin all i ≤ j) :
    ⟨i, j⟩ ∈ generated lookaheadMajor lookaheadMinor labels all := by
  have hi := UInt32.lt_iff_toNat_lt.mp hi
  have hj := UInt32.lt_iff_toNat_lt.mp hj
  have hbegin := UInt32.le_iff_toNat_le.mp hbegin
  rw [generated, List.mem_flatMap]
  refine ⟨i.toNat, List.mem_range.mpr hi, ?_⟩
  simp only [UInt32.ofNat_toNat]
  refine List.mem_map.mpr ⟨j.toNat, ?_, by rw [UInt32.ofNat_toNat]⟩
  rw [List.mem_range'_1]
  omega

theorem find?_generated (h : Own spendPublicKey m) {labels : List (List String)} {i j : UInt32}
    (hi : i < majorEnd lookaheadMajor labels) (hj : j < minorEnd lookaheadMinor labels i) :
    ((generated lookaheadMajor lookaheadMinor labels (m.entries.map Prod.snd)).foldl (register spendPublicKey) m).find?
      (spendPublicKey ⟨i, j⟩) = some ⟨i, j⟩ := by
  rw [find?_foldl_register]
  split_ifs with hmem
  · rfl
  · have hskipped : j < minorBegin (m.entries.map Prod.snd) i := by
      by_contra hge
      exact hmem (mem_generated hi hj (UInt32.not_lt.mp hge))
    obtain ⟨⟨key, index⟩, hentry, rfl⟩ := List.mem_map.mp (mem_of_lt_minorBegin hskipped)
    have hfind := UnorderedMap.mem_entries_iff.mp hentry
    rwa [h key _ hfind] at hfind

variable {s s' : Subaddresses κ} {index : SubaddressIndex}

def Kept (spendPublicKey : SubaddressIndex ↪ κ) (s : Subaddresses κ) : Prop := Sized s.labels ∧ Own spendPublicKey s.subaddresses

theorem Kept.expand (h : Kept spendPublicKey s)
    (hexpand : expandSubaddresses lookaheadMajor lookaheadMinor spendPublicKey s index = some s') : Kept spendPublicKey s' := by
  obtain ⟨labels, hlabels, rfl⟩ := Option.map_eq_some_iff.mp hexpand
  exact ⟨h.1.expandLabels hlabels, h.2.foldl_register _⟩

theorem Kept.apply (h : Kept spendPublicKey s) {call : SubaddressCall}
    (hcall : call.apply lookaheadMajor lookaheadMinor spendPublicKey s = some s') : Kept spendPublicKey s' := by
  cases call with
  | expandSubaddresses index => exact h.expand hcall
  | addSubaddressAccount label =>
    obtain ⟨s', hexpand, rfl⟩ := Option.map_eq_some_iff.mp hcall
    have hkept := h.expand hexpand
    refine ⟨⟨by rw [List.length_modify]; exact hkept.1.1, fun account hmem => ?_⟩, hkept.2⟩
    rcases List.getElem?_of_mem hmem with ⟨n, hn⟩
    rw [List.getElem?_modify] at hn
    obtain ⟨old, hold, rfl⟩ := Option.map_eq_some_iff.mp hn
    have hlen := hkept.1.2 old (List.mem_of_getElem? hold)
    split_ifs
    · rwa [List.length_set]
    · exact hlen
  | createOneOffSubaddress index =>
    cases hcall
    exact ⟨h.1, h.2.register index⟩

theorem kept_of_calls {calls : List SubaddressCall}
    (hrun : subaddressesAfter lookaheadMajor lookaheadMinor spendPublicKey calls = some s) : Kept spendPublicKey s := by
  refine Effects.foldlM_invariant ?_ (fun t call _ t' ht hcall => ht.apply hcall) hrun
  refine ⟨⟨Nat.two_pow_pos 32, fun account hmem => absurd hmem List.not_mem_nil⟩, fun key i hfind => ?_⟩
  cases hfind

theorem Kept.expanded (h : Kept spendPublicKey s) (hmajor : index.major < uint32Max) (hminor : index.minor < uint32Max) :
    ∃ s', expandSubaddresses lookaheadMajor lookaheadMinor spendPublicKey s index = some s' ∧
      Expanded lookaheadMajor lookaheadMinor spendPublicKey s' index := by
  obtain ⟨labels, hlabels, account, haccount, hlen⟩ := expandLabels_reaches s.labels hmajor hminor
  have hsized := h.1.expandLabels hlabels
  have hmajors := (List.getElem?_eq_some_iff.mp haccount).1
  refine ⟨_, by rw [expandSubaddresses, hlabels]; rfl, ?_⟩
  refine ⟨fun i hi j hj => find?_generated h.2 hi hj, ?_, ?_, h.2.foldl_register _, account, haccount, hlen⟩
  · apply clampedSum_le_of_le
    rw [toNat_labelBase hsized.1]
    omega
  · apply clampedSum_le_of_le
    simp only [haccount, Option.map_some, Option.getD_some]
    rw [toNat_labelBase (hsized.2 account (List.mem_of_getElem? haccount))]
    omega

end

theorem expand_subaddresses_iff {κ : Type} [DecidableEq κ] (lookaheadMajor lookaheadMinor : UInt32)
    (spendPublicKey : SubaddressIndex ↪ κ) (calls : List SubaddressCall) (s : Subaddresses κ)
    (hrun : subaddressesAfter lookaheadMajor lookaheadMinor spendPublicKey calls = some s) (index : SubaddressIndex) :
    (∃ s', expandSubaddresses lookaheadMajor lookaheadMinor spendPublicKey s index = some s' ∧
        Expanded lookaheadMajor lookaheadMinor spendPublicKey s' index) ↔
      index.major < uint32Max ∧ index.minor < uint32Max := by
  have hkept := kept_of_calls hrun
  constructor
  · rintro ⟨s', hexpand, hexpanded⟩
    obtain ⟨labels, hlabels, rfl⟩ := Option.map_eq_some_iff.mp hexpand
    by_contra hmax
    exact not_reaches_of_max hkept.1 hmax hlabels hexpanded.labelled
  · rintro ⟨hmajor, hminor⟩
    exact hkept.expanded hmajor hminor

theorem expand_subaddresses_new_wallet :
    (∃ s', expandSubaddresses 50 200 (Function.Embedding.refl SubaddressIndex) ⟨[], ∅⟩ ⟨3, 7⟩ = some s' ∧
        Expanded 50 200 (Function.Embedding.refl SubaddressIndex) s' ⟨3, 7⟩) ↔
      (3 : UInt32) < uint32Max ∧ (7 : UInt32) < uint32Max :=
  expand_subaddresses_iff 50 200 (Function.Embedding.refl SubaddressIndex) [] ⟨[], ∅⟩ rfl ⟨3, 7⟩

theorem expand_erases_labels :
    (subaddressesAfter 1 1 (Function.Embedding.refl SubaddressIndex)
      [.addSubaddressAccount "Primary account", .expandSubaddresses ⟨0, 0xffffffff⟩]).map Subaddresses.labels = some [[]] := by
  decide +kernel

end Velkavo.Wallet
