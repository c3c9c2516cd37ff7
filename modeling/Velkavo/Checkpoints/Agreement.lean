import Velkavo.Checkpoints.Dns

namespace Velkavo.Checkpoints

open ByteCodec Cryptonote

def Returned (resolver : Resolver) (name record : Bytes) : Prop :=
  (resolver name).avail = true ∧ (resolver name).valid = true ∧ record ∈ (resolver name).records

def carried (record : Bytes) : Option (UInt64 × Hash) := do
  let (height, hashStr) ← parseRecord record
  let h ← Blob.ofHex? 32 hashStr
  pure (height, h)

def ConflictFree (points : Points) (records : List Bytes) : Prop :=
  ∀ r ∈ records, ∀ height h, carried r = some (height, h) →
    (∀ h', points.find? height = some h' → h' = h) ∧
    ∀ r' ∈ records, ∀ h', carried r' = some (height, h') → h' = h

theorem conflictFree_skip (points : Points) {r : Bytes} (hr : carried r = none) (l : List Bytes) :
    ConflictFree points (r :: l) ↔ ConflictFree points l := by
  simp [ConflictFree, hr]

theorem Points.find?_assign (points : Points) (height : UInt64) (h : Hash) (height' : UInt64) :
    (points.assign height h).find? height' = if height' = height then some h else points.find? height' := by
  rw [OrderedMap.find?_assign]
  simp only [UInt64.toNat_inj]

theorem conflictFree_cons (points : Points) {r : Bytes} {height : UInt64} {h : Hash}
    (hr : carried r = some (height, h)) (l : List Bytes) :
    ConflictFree points (r :: l) ↔
      (∀ h', points.find? height = some h' → h' = h) ∧ ConflictFree (points.assign height h) l := by
  constructor
  · intro hfree
    have hhead := hfree r (by simp) height h hr
    refine ⟨hhead.1, fun r₁ hr₁ height₁ h₁ hc₁ => ?_⟩
    obtain ⟨htable, hother⟩ := hfree r₁ (by simp [hr₁]) height₁ h₁ hc₁
    refine ⟨fun h' hfind => ?_, fun r' hr' => hother r' (by simp [hr'])⟩
    rw [Points.find?_assign] at hfind
    split_ifs at hfind with heq
    · rw [← Option.some.inj hfind]
      exact hother r (by simp) h (heq ▸ hr)
    · exact htable h' hfind
  · rintro ⟨htable, hfree⟩ r₁ hr₁ height₁ h₁ hc₁
    have hself : (points.assign height h).find? height = some h := by
      rw [Points.find?_assign, if_pos rfl]
    rcases List.mem_cons.mp hr₁ with rfl | hr₁
    · obtain ⟨rfl, rfl⟩ := Prod.mk.inj (Option.some.inj (hr.symm.trans hc₁))
      refine ⟨htable, fun r' hr' h' hc' => ?_⟩
      rcases List.mem_cons.mp hr' with rfl | hr'
      · exact (Prod.mk.inj (Option.some.inj (hc'.symm.trans hr))).2
      · exact ((hfree r' hr' _ h' hc').1 _ hself).symm
    · obtain ⟨hassigned, hother⟩ := hfree r₁ hr₁ height₁ h₁ hc₁
      refine ⟨fun h' hfind => ?_, fun r' hr' h' hc' => ?_⟩
      · by_cases heq : height₁ = height
        · subst heq
          rw [htable h' hfind, hassigned _ hself]
        · exact hassigned h' (by rw [Points.find?_assign, if_neg heq]; exact hfind)
      · rcases List.mem_cons.mp hr' with rfl | hr'
        · obtain ⟨rfl, rfl⟩ := Prod.mk.inj (Option.some.inj (hr.symm.trans hc'))
          exact hassigned _ hself
        · exact hother r' hr' h' hc'

def Introduces (points : Points) (records : List Bytes) (height : UInt64) (h : Hash) : Prop :=
  points.find? height = none ∧ ∃ before r, (before ++ [r]) <+: records ∧
    ConflictFree points (before ++ [r]) ∧ carried r = some (height, h)

theorem not_introduces_nil (points : Points) (height : UInt64) (h : Hash) :
    ¬ Introduces points [] height h := by
  rintro ⟨-, before, r, hpre, -⟩
  simp at hpre

theorem introduces_cons (points : Points) (r : Bytes) (l : List Bytes) (height : UInt64) (h : Hash) :
    Introduces points (r :: l) height h ↔
      points.find? height = none ∧
        (ConflictFree points [r] ∧ carried r = some (height, h) ∨
          ∃ before r', (before ++ [r']) <+: l ∧ ConflictFree points (r :: (before ++ [r'])) ∧
            carried r' = some (height, h)) := by
  refine and_congr_right fun _ => ⟨?_, ?_⟩
  · rintro ⟨before, r', hpre, hfree, hc⟩
    cases before with
    | nil =>
      obtain ⟨rfl, -⟩ := List.cons_prefix_cons.mp hpre
      exact .inl ⟨hfree, hc⟩
    | cons b before =>
      obtain ⟨rfl, htail⟩ := List.cons_prefix_cons.mp hpre
      exact .inr ⟨before, r', htail, hfree, hc⟩
  · rintro (⟨hfree, hc⟩ | ⟨before, r', hpre, hfree, hc⟩)
    · exact ⟨[], r, List.cons_prefix_cons.mpr ⟨rfl, List.nil_prefix⟩, hfree, hc⟩
    · exact ⟨r :: before, r', List.cons_prefix_cons.mpr ⟨rfl, hpre⟩, hfree, hc⟩

theorem carried_eq_none {r : Bytes} (h : parseRecord r = none) : carried r = none := by
  simp [carried, h]

theorem carried_of_parseRecord {r hashStr : Bytes} {height : UInt64}
    (h : parseRecord r = some (height, hashStr)) :
    ∃ hash, Blob.ofHex? 32 hashStr = some hash ∧ carried r = some (height, hash) := by
  have hhash : ∃ hash, Blob.ofHex? 32 hashStr = some hash := by
    unfold parseRecord at h
    split at h
    · cases h
    · simp only [Option.bind_eq_bind, Option.bind_eq_some_iff, Option.pure_def, Option.some.injEq,
        Prod.mk.injEq] at h
      obtain ⟨_, -, hash, hhex, -, rfl⟩ := h
      exact ⟨hash, hhex⟩
  obtain ⟨hash, hhex⟩ := hhash
  exact ⟨hash, hhex, by simp [carried, h, hhex]⟩

theorem addCheckpoint_eq (points : Points) (height : UInt64) {hashStr : Bytes} {hash : Hash}
    (h : Blob.ofHex? 32 hashStr = some hash) :
    addCheckpoint points height hashStr =
      if ∀ h' ∈ points.find? height, h' = hash then some (points.assign height hash) else none := by
  rw [addCheckpoint, h]
  cases hfind : points.find? height with
  | none => simp
  | some old => simp [eq_comm]

theorem introduces_added (points : Points) {r : Bytes} {height₀ : UInt64} {hash : Hash}
    (hc : carried r = some (height₀, hash)) (hok : ∀ h', points.find? height₀ = some h' → h' = hash)
    (l : List Bytes) (height : UInt64) (h : Hash) :
    (points.assign height₀ hash).find? height = some h ∨ Introduces (points.assign height₀ hash) l height h ↔
      points.find? height = some h ∨ Introduces points (r :: l) height h := by
  have hcons : ∀ l, ConflictFree points (r :: l) ↔ ConflictFree (points.assign height₀ hash) l := fun l => by
    rw [conflictFree_cons points hc, and_iff_right hok]
  have hnil : ConflictFree (points.assign height₀ hash) [] := by simp [ConflictFree]
  rw [introduces_cons points]
  simp only [Introduces, hcons, Points.find?_assign, hc]
  by_cases heq : height = height₀
  · subst heq
    constructor
    · rintro (hsome | ⟨hnone, -⟩)
      · obtain rfl : hash = h := by simpa using hsome
        cases hfind : points.find? height with
        | none => exact .inr ⟨rfl, .inl ⟨hnil, rfl⟩⟩
        | some old => exact .inl (by rw [hok old hfind])
      · simp at hnone
    · rintro (hsome | ⟨-, ⟨-, hsame⟩ | ⟨before, r', -, hfree, hc'⟩⟩)
      · exact .inl (by rw [if_pos rfl, hok h hsome])
      · exact .inl (by rw [if_pos rfl, (Prod.mk.inj (Option.some.inj hsame)).2])
      · have hagree := (hfree r' (by simp) height h hc').1 hash (by rw [Points.find?_assign, if_pos rfl])
        exact .inl (by rw [if_pos rfl, hagree])
  · have hne : ¬ (some (height₀, hash) = some (height, h)) := by
      rintro he
      exact heq (Prod.mk.inj (Option.some.inj he)).1.symm
    simp only [heq, hne, if_false, and_false, false_or]

theorem find?_addRecords (points : Points) (records : List Bytes) (height : UInt64) (h : Hash) :
    (addRecords points records).2.find? height = some h ↔
      points.find? height = some h ∨ Introduces points records height h := by
  induction records generalizing points with
  | nil => simp [addRecords, not_introduces_nil]
  | cons r l ih =>
    rw [addRecords]
    cases hparse : parseRecord r with
    | none =>
      have hc := carried_eq_none hparse
      dsimp only
      rw [ih, introduces_cons, Introduces]
      simp [conflictFree_skip points hc, hc]
    | some p =>
      obtain ⟨height₀, hashStr⟩ := p
      obtain ⟨hash, hhex, hc⟩ := carried_of_parseRecord hparse
      dsimp only
      rw [addCheckpoint_eq points height₀ hhex]
      split_ifs with hok
      · dsimp only
        rw [ih, introduces_added points hc hok]
      · -- the first record contradicts the table, so no list that starts with it is conflict-free
        have hconflict : ∀ l, ¬ ConflictFree points (r :: l) := fun l hfree =>
          hok ((conflictFree_cons points hc l).mp hfree).1
        simp [introduces_cons, hconflict]

def AgreedByTwo (resolver : Resolver) (nettype : NetworkType) (points : Points) : Prop :=
  ∀ height h, (loadCheckpointsFromDns resolver nettype points).2.find? height = some h →
    points.find? height ≠ some h →
    ∃ record, carried record = some (height, h) ∧ ∃ name ∈ dnsUrls nettype, ∃ name' ∈ dnsUrls nettype,
      name ≠ name' ∧ Returned resolver name record ∧ Returned resolver name' record

theorem main_names_ne : mainPulse ≠ mainVelkavo := by decide

theorem loadCheckpointsFromDns_mainnet (resolver : Resolver) (points : Points) :
    loadCheckpointsFromDns resolver .mainnet points =
      addRecords points (resolver mainVelkavo).kept.toList := by
  rw [loadCheckpointsFromDns]
  have hcount : ∀ e : StringSet,
      3 ≤ occurrences ((dnsUrls .mainnet).map fun url => (resolver url).kept) e ↔
        e.order = (resolver mainVelkavo).kept.order := by
    intro e
    simp only [dnsUrls, List.map_cons, List.map_nil, occurrences, List.countP_cons, List.countP_nil,
      decide_eq_true_eq]
    split_ifs with hv hp
    all_goals simp_all
  cases hload : loadTxtRecordsFromDns resolver (dnsUrls .mainnet) with
  | none =>
    have hnil : (resolver mainVelkavo).kept.toList = [] := by
      by_contra hne
      have hsome := (loadTxtRecordsFromDns_eq_some resolver (dnsUrls .mainnet) _).mpr
        ⟨by decide, _, hne, rfl, (hcount _).mpr rfl⟩
      rw [hload] at hsome
      cases hsome
    rw [hnil]
    rfl
  | some rs =>
    obtain ⟨-, e, -, rfl, hmajority⟩ := (loadTxtRecordsFromDns_eq_some _ _ _).mp hload
    rw [StringSet.toList_eq_of_order ((hcount e).mp hmajority)]

theorem mainnet_agreedByTwo_iff (resolver : Resolver) (points : Points) :
    AgreedByTwo resolver .mainnet points ↔
      ∀ height h, Introduces points (resolver mainVelkavo).kept.toList height h →
        ∃ record, carried record = some (height, h) ∧ Returned resolver mainVelkavo record ∧
          Returned resolver mainPulse record := by
  rw [AgreedByTwo]
  simp only [loadCheckpointsFromDns_mainnet, find?_addRecords]
  refine forall_congr' fun height => forall_congr' fun h => ⟨fun hagreed hnew => ?_, fun hagreed hfind hne => ?_⟩
  · obtain ⟨record, hc, name, hname, name', hname', hdiff, hr, hr'⟩ :=
      hagreed (.inr hnew) (by rw [hnew.1]; simp)
    refine ⟨record, hc, ?_⟩
    -- the list has only two names, so the two different ones are these
    simp only [dnsUrls, List.mem_cons, List.not_mem_nil, or_false, or_self] at hname hname'
    rcases hname with rfl | rfl <;> rcases hname' with rfl | rfl
    · exact absurd rfl hdiff
    · exact ⟨hr', hr⟩
    · exact ⟨hr, hr'⟩
    · exact absurd rfl hdiff
  · obtain ⟨record, hc, hv, hp⟩ := hagreed (hfind.resolve_left hne)
    exact ⟨record, hc, mainVelkavo, by simp [dnsUrls], mainPulse, by simp [dnsUrls], main_names_ne.symm, hv, hp⟩

def forgedRecord : Bytes := ascii "1:00000000000000000000000000000000000000000000000000000000000000ff"

def forgingResolver : Resolver := fun name =>
  if name = mainVelkavo then ⟨true, true, [forgedRecord]⟩ else ⟨false, false, []⟩

theorem mainnet_single_domain :
    (∀ name ≠ mainVelkavo, ∀ record, ¬ Returned forgingResolver name record) ∧
    ((loadCheckpointsFromDns forgingResolver .mainnet ∅).2.find? 1).isSome = true ∧
    ¬ AgreedByTwo forgingResolver .mainnet ∅ := by
  have hother : ∀ name ≠ mainVelkavo, ∀ record, ¬ Returned forgingResolver name record := by
    rintro name hne record ⟨havail, -⟩
    simp [forgingResolver, hne] at havail
  have hsome : ((loadCheckpointsFromDns forgingResolver .mainnet ∅).2.find? 1).isSome = true := by
    decide +kernel
  refine ⟨hother, hsome, fun hagreed => ?_⟩
  obtain ⟨h, hfind⟩ := Option.isSome_iff_exists.mp hsome
  obtain ⟨record, -, name, -, name', -, hdiff, hr, hr'⟩ := hagreed 1 h hfind (by simp)
  by_cases hname : name = mainVelkavo
  · exact hother name' (hname ▸ hdiff.symm) record hr'
  · exact hother name hname record hr

end Velkavo.Checkpoints
