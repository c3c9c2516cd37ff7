import Velkavo.Containers.SortedTable
import Velkavo.Cryptonote.KeyOffsets
import Velkavo.Wallet.Transfers
import Mathlib.Data.Prod.Lex

/-! What a wallet keeps about the uses of its own outputs in rings, with and without the cache that finds them (wallet2.cpp). -/

namespace Velkavo.Wallet

open ByteCodec Cryptonote

def cacheOrder (p : UInt64 × UInt64) : ℕ ×ₗ ℕ := toLex (p.1.toNat, p.2.toNat)

abbrev OutputTrackerCache := OrderedMap cacheOrder ℕ

def TransferDetails.cacheKey (td : TransferDetails) : UInt64 × UInt64 := (if td.rct then 0 else td.amount, td.globalOutputIndex)

def createOutputTrackerCache (transfers : List TransferDetails) : OutputTrackerCache :=
  (transfers.map TransferDetails.cacheKey).zipIdx.foldl (fun cache e => cache.assign e.1 e.2) ∅

structure TrackingSettings where
  trackUses : Bool
  backgroundSyncing : Bool
  watchOnly : Bool
  multisig : Bool
  coldKeyImages : UnorderedMap PublicKey KeyImage

structure Tracked where
  transfers : List TransferDetails
  keyImages : UnorderedMap KeyImage ℕ
  pubKeys : UnorderedMap PublicKey ℕ
  backgroundTxs : List Hash

structure Tracking extends Tracked where
  cache : Option OutputTrackerCache

structure ScannedOut where
  o : ℕ
  pub : PublicKey
  ki : KeyImage
  amount : UInt64
  index : SubaddressIndex

structure ScannedTx where
  txid : Hash
  tx : TransactionPrefix
  oIndices : List UInt64
  height : UInt64
  minerTx : Bool
  pool : Bool
  received : List (List ScannedOut)

inductive TrackingStep
  | gotMoney (t : ScannedTx)
  | receive (t : ScannedTx) (pkIndex : ℕ) (out : ScannedOut)
  | input (t : ScannedTx) (inToKey : TxinToKey)

def ScannedTx.steps (t : ScannedTx) : List TrackingStep :=
  (t.received.zipIdx.flatMap fun outs =>
    if outs.1.isEmpty then [] else .gotMoney t :: outs.1.map (.receive t outs.2)) ++
  (t.tx.vin.filterMap Core.toKey?).map (.input t)

section

variable (w : TrackingSettings)

def keepTx (txid : Hash) (txs : List Hash) : List Hash := if txid ∈ txs then txs else txs ++ [txid]

def TrackingSettings.keep (t : ScannedTx) (txs : List Hash) : List Hash := if w.backgroundSyncing then keepTx t.txid txs else txs

def newTransfer (t : ScannedTx) (pkIndex : ℕ) (out : ScannedOut) (vout : TxOut) (g : UInt64) : TransferDetails :=
  let known := !w.watchOnly && !w.multisig && !w.backgroundSyncing
  let cold := if known then none else w.coldKeyImages.find? out.pub
  { tx := t.tx
    internalOutputIndex := UInt64.ofNat out.o
    globalOutputIndex := g
    spent := false
    frozen := false
    keyImage := cold.getD out.ki
    amount := if vout.amount ≠ 0 then vout.amount else out.amount
    rct := vout.amount = 0 ∨ t.minerTx ∧ t.tx.version = 2
    keyImageKnown := known || cold.isSome
    keyImageRequest := w.watchOnly
    pkIndex := UInt64.ofNat pkIndex
    subaddrIndex := out.index
    keyImagePartial := w.multisig
    uses := [] }

def TransferDetails.replaced (td : TransferDetails) (t : ScannedTx) (pkIndex : ℕ) (out : ScannedOut) (vout : TxOut) (g : UInt64) :
    TransferDetails :=
  { td with
    tx := t.tx
    internalOutputIndex := UInt64.ofNat out.o
    globalOutputIndex := g
    amount := if vout.amount ≠ 0 then vout.amount else out.amount
    rct := vout.amount = 0 ∨ t.minerTx ∧ t.tx.version = 2
    pkIndex := UInt64.ofNat pkIndex
    subaddrIndex := out.index }

def gotMoney (s : Tracked) (t : ScannedTx) : Option Tracked :=
  if t.pool then some s
  else if t.tx.vout.length ≠ t.oIndices.length then none
  else some { s with backgroundTxs := w.keep t s.backgroundTxs }

def receive (s : Tracked) (t : ScannedTx) (pkIndex : ℕ) (out : ScannedOut) :
    Option (Tracked × Option ((UInt64 × UInt64) × ℕ)) := do
  let vout ← t.tx.vout[out.o]?
  match s.pubKeys.find? out.pub with
  | none =>
    if t.pool then pure (s, none)
    else
      let g ← t.oIndices[out.o]?
      let td := newTransfer w t pkIndex out vout g
      let idx := s.transfers.length
      pure ({ s with
        transfers := s.transfers ++ [td]
        keyImages := if td.keyImageKnown then s.keyImages.upsert td.keyImage fun _ => idx else s.keyImages
        pubKeys := s.pubKeys.upsert out.pub fun _ => idx }, some ((vout.amount, g), idx))
  | some idx =>
    let td ← s.transfers[idx]?
    if td.spent ∨ td.amount ≥ out.amount then pure (s, none)
    else if t.pool then pure (s, none)
    else
      let g ← t.oIndices[out.o]?
      let td := td.replaced t pkIndex out vout g
      if td.getPublicKey.toOption = some out.pub then
        pure ({ s with transfers := s.transfers.set idx td }, some ((vout.amount, g), idx))
      else none

def spend (s : Tracked) (t : ScannedTx) (inToKey : TxinToKey) : Option Tracked :=
  match s.keyImages.find? inToKey.kImage with
  | none => some s
  | some k => do
    let td ← s.transfers[k]?
    let amount := if inToKey.amount > 0 ∧ inToKey.amount ≠ td.amount then inToKey.amount else td.amount
    pure { s with
      transfers := s.transfers.set k { td with amount, spent := true }
      backgroundTxs := if t.pool then s.backgroundTxs else w.keep t s.backgroundTxs }

def ringMember (t : ScannedTx) (p : TransferDetails × List Hash) : TransferDetails × List Hash :=
  (if w.trackUses then { p.1 with uses := p.1.uses ++ [(t.height, t.txid)] } else p.1,
    if p.1.keyImageKnown then p.2 else w.keep t p.2)

def trackCached (cache : OutputTrackerCache) (t : ScannedTx) (amount : UInt64) :
    List UInt64 → List TransferDetails × List Hash → Option (List TransferDetails × List Hash)
  | [], p => some p
  | offset :: offsets, p =>
    match cache.find? (amount, offset) with
    | none => trackCached cache t amount offsets p
    | some idx => do
      let td ← p.1[idx]?
      let q := ringMember w t (td, p.2)
      trackCached cache t amount offsets (p.1.set idx q.1, q.2)

/-- The loops over all transfers. Their test for the amount compares the amount of the input with itself. -/
def trackUncached (t : ScannedTx) (inToKey : TxinToKey) (amount : UInt64) (offsets : List UInt64) :
    List TransferDetails → List Hash → List TransferDetails × List Hash
  | [], txs => ([], txs)
  | td :: transfers, txs =>
    let p :=
      if amount ≠ inToKey.amount then (td, txs)
      else offsets.foldl (fun p offset => if offset = p.1.globalOutputIndex then ringMember w t p else p) (td, txs)
    let q := trackUncached t inToKey amount offsets transfers p.2
    (p.1 :: q.1, q.2)

def trackRing (s : Tracking) (t : ScannedTx) (inToKey : TxinToKey) : Option Tracking :=
  let amount := inToKey.amount
  let offsets := relativeOutputOffsetsToAbsolute inToKey.keyOffsets
  match s.cache with
  | some cache => (trackCached w cache t amount offsets (s.transfers, s.backgroundTxs)).map fun p =>
      { s with transfers := p.1, backgroundTxs := p.2 }
  | none =>
    let p := trackUncached w t inToKey amount offsets s.transfers s.backgroundTxs
    some { s with transfers := p.1, backgroundTxs := p.2 }

def tracksRing (s : Tracked) (t : ScannedTx) (inToKey : TxinToKey) : Bool :=
  !t.pool && (w.trackUses || (w.backgroundSyncing && (s.keyImages.find? inToKey.kImage).isNone))

def TrackingStep.apply (s : Tracking) : TrackingStep → Option Tracking
  | .gotMoney t => (Wallet.gotMoney w s.toTracked t).map (⟨·, s.cache⟩)
  | .receive t pkIndex out => (Wallet.receive w s.toTracked t pkIndex out).map fun p =>
      ⟨p.1, p.2.elim s.cache fun e => s.cache.map (·.assign e.1 e.2)⟩
  | .input t inToKey => do
    let s' ← spend w s.toTracked t inToKey
    if tracksRing w s.toTracked t inToKey then trackRing w ⟨s', s.cache⟩ t inToKey else pure ⟨s', s.cache⟩

def processNewTransactions (s : Tracking) (txs : List ScannedTx) : Option Tracking :=
  (txs.flatMap ScannedTx.steps).foldlM (TrackingStep.apply w) s

end

section

theorem cacheOrder_injective : Function.Injective cacheOrder := by
  intro p q h
  have hpair := toLex.injective h
  exact Prod.ext (UInt64.toNat_inj.mp (congrArg Prod.fst hpair)) (UInt64.toNat_inj.mp (congrArg Prod.snd hpair))

theorem createOutputTrackerCache_concat (l : List TransferDetails) (td : TransferDetails) :
    createOutputTrackerCache (l ++ [td]) = (createOutputTrackerCache l).assign td.cacheKey l.length := by
  rw [createOutputTrackerCache, List.map_append, List.zipIdx_append, List.foldl_append, List.length_map, Nat.zero_add]
  rfl

theorem createOutputTrackerCache_congr {l l' : List TransferDetails}
    (h : l.map TransferDetails.cacheKey = l'.map TransferDetails.cacheKey) :
    createOutputTrackerCache l = createOutputTrackerCache l' := by
  rw [createOutputTrackerCache, h, createOutputTrackerCache]

theorem find?_createOutputTrackerCache {l : List TransferDetails} (h : (l.map TransferDetails.cacheKey).Nodup)
    (key : UInt64 × UInt64) (i : ℕ) :
    (createOutputTrackerCache l).find? key = some i ↔ (l.map TransferDetails.cacheKey)[i]? = some key := by
  induction l using List.reverseRecOn with
  | nil => exact iff_of_false (by rintro ⟨⟩) (by rintro ⟨⟩)
  | append_singleton l td ih =>
    rw [List.map_append, List.map_singleton] at h ⊢
    have hnew : td.cacheKey ∉ l.map TransferDetails.cacheKey := fun hmem =>
      (List.nodup_append.mp h).2.2 _ hmem _ (List.mem_singleton_self _) rfl
    rw [createOutputTrackerCache_concat, OrderedMap.find?_assign]
    by_cases hkey : key = td.cacheKey
    · subst hkey
      rw [if_pos rfl, Option.some_inj]
      constructor
      · rintro rfl
        rw [List.getElem?_append_right (by rw [List.length_map]), List.length_map, Nat.sub_self]
        rfl
      · intro hget
        by_contra hne
        have hlt := (List.getElem?_eq_some_iff.mp hget).1
        rw [List.length_append, List.length_map, List.length_singleton] at hlt
        rw [List.getElem?_append_left (by rw [List.length_map]; omega)] at hget
        exact hnew (List.mem_of_getElem? hget)
    · rw [if_neg fun heq => hkey (cacheOrder_injective heq), ih (List.nodup_append.mp h).1]
      by_cases hlt : i < (l.map TransferDetails.cacheKey).length
      · rw [List.getElem?_append_left hlt]
      · rw [List.getElem?_append_right (Nat.le_of_not_lt hlt), List.getElem?_eq_none (Nat.le_of_not_lt hlt)]
        apply iff_of_false (by rintro ⟨⟩)
        intro hget
        have hmem := List.mem_of_getElem? hget
        exact hkey (List.mem_singleton.mp hmem)

end

section

variable (w : TrackingSettings) (t : ScannedTx)

def usedIn (offsets : List UInt64) (td : TransferDetails) : TransferDetails :=
  if w.trackUses then
    { td with uses := td.uses ++ List.replicate (offsets.count td.globalOutputIndex) (t.height, t.txid) }
  else td

def mayBeSpent (offsets : List UInt64) (td : TransferDetails) : Bool := !td.keyImageKnown && offsets.contains td.globalOutputIndex

def keptIf (b : Bool) (txs : List Hash) : List Hash := if b then w.keep t txs else txs

variable {w t}

theorem keptIf_keptIf (b b' : Bool) (txs : List Hash) : keptIf w t b' (keptIf w t b txs) = keptIf w t (b || b') txs := by
  have hkeep : w.keep t (w.keep t txs) = w.keep t txs := by
    simp only [TrackingSettings.keep, keepTx]
    split_ifs with hsync hmem hmem' <;> simp_all
  cases b <;> cases b' <;> simp [keptIf, hkeep]

theorem ringMember_eq (td : TransferDetails) (txs : List Hash) :
    ringMember w t (td, txs) = (usedIn w t [td.globalOutputIndex] td, keptIf w t (!td.keyImageKnown) txs) := by
  cases hknown : td.keyImageKnown <;> simp [ringMember, usedIn, keptIf, hknown]

@[simp]
theorem usedIn_cacheKey (offsets : List UInt64) (td : TransferDetails) : (usedIn w t offsets td).cacheKey = td.cacheKey := by
  rw [usedIn]
  split_ifs <;> rfl

@[simp]
theorem usedIn_globalOutputIndex (offsets : List UInt64) (td : TransferDetails) :
    (usedIn w t offsets td).globalOutputIndex = td.globalOutputIndex := by
  rw [usedIn]
  split_ifs <;> rfl

@[simp]
theorem usedIn_keyImageKnown (offsets : List UInt64) (td : TransferDetails) :
    (usedIn w t offsets td).keyImageKnown = td.keyImageKnown := by
  rw [usedIn]
  split_ifs <;> rfl

theorem usedIn_usedIn (offsets offsets' : List UInt64) (td : TransferDetails) :
    usedIn w t offsets' (usedIn w t offsets td) = usedIn w t (offsets ++ offsets') td := by
  by_cases htrack : w.trackUses
  · simp only [usedIn, htrack, if_true, List.count_append, List.replicate_add, List.append_assoc]
  · simp [usedIn, htrack]

variable {offsets : List UInt64} {l : List TransferDetails}

theorem usedIn_of_not_mem {td : TransferDetails} (h : td.globalOutputIndex ∉ offsets) :
    usedIn w t offsets td = td := by
  rw [usedIn, List.count_eq_zero.mpr h, List.replicate_zero, List.append_nil, ite_self]

theorem foldl_ringMember (offsets : List UInt64) (td : TransferDetails) (txs : List Hash) :
    offsets.foldl (fun p offset => if offset = p.1.globalOutputIndex then ringMember w t p else p) (td, txs) =
      (usedIn w t offsets td, keptIf w t (mayBeSpent offsets td) txs) := by
  induction offsets generalizing td txs with
  | nil => simp [usedIn, mayBeSpent, keptIf]
  | cons offset offsets ih =>
    rw [List.foldl_cons]
    split_ifs with heq
    · have heq : offset = td.globalOutputIndex := heq
      subst heq
      rw [ringMember_eq, ih, usedIn_usedIn, keptIf_keptIf]
      simp only [List.singleton_append, mayBeSpent, usedIn_keyImageKnown, usedIn_globalOutputIndex, List.contains_cons,
        beq_self_eq_true, Bool.true_or, Bool.and_true]
      cases td.keyImageKnown <;> rfl
    · rw [ih]
      have hcount : usedIn w t (offset :: offsets) td = usedIn w t offsets td := by
        rw [usedIn, usedIn, List.count_cons_of_ne heq]
      have hcontains : mayBeSpent (offset :: offsets) td = mayBeSpent offsets td := by
        have hbeq : (td.globalOutputIndex == offset) = false := beq_false_of_ne fun h => heq h.symm
        rw [mayBeSpent, mayBeSpent, List.contains_cons, hbeq, Bool.false_or]
      rw [hcount, hcontains]

theorem trackUncached_eq (inToKey : TxinToKey) (offsets : List UInt64) (l : List TransferDetails) (txs : List Hash) :
    trackUncached w t inToKey inToKey.amount offsets l txs =
      (l.map (usedIn w t offsets), keptIf w t (l.any (mayBeSpent offsets)) txs) := by
  induction l generalizing txs with
  | nil => rfl
  | cons td l ih =>
    rw [trackUncached]
    simp only [ne_eq, not_true_eq_false, if_false, foldl_ringMember, ih, keptIf_keptIf, List.map_cons, List.any_cons]

theorem map_usedIn_map_usedIn (offsets offsets' : List UInt64) (l : List TransferDetails) :
    (l.map (usedIn w t offsets)).map (usedIn w t offsets') = l.map (usedIn w t (offsets ++ offsets')) := by
  rw [List.map_map]
  apply List.map_congr_left
  intro td _
  exact usedIn_usedIn offsets offsets' td

theorem any_mayBeSpent_cons (offset : UInt64) (offsets : List UInt64) (l : List TransferDetails) :
    (l.any (mayBeSpent [offset]) || (l.map (usedIn w t [offset])).any (mayBeSpent offsets)) =
      l.any (mayBeSpent (offset :: offsets)) := by
  induction l with
  | nil => rfl
  | cons td l ih =>
    rw [List.map_cons, List.any_cons, List.any_cons, List.any_cons, ← ih]
    have htd : mayBeSpent (offset :: offsets) td = (mayBeSpent [offset] td || mayBeSpent offsets (usedIn w t [offset] td)) := by
      simp only [mayBeSpent, usedIn_keyImageKnown, usedIn_globalOutputIndex, List.contains_cons, List.contains_nil, Bool.or_false]
      cases td.keyImageKnown <;> simp
    rw [htd]
    ac_rfl

theorem map_usedIn_of_not_mem
    (h : ∀ td ∈ l, td.globalOutputIndex ∉ offsets) : l.map (usedIn w t offsets) = l := by
  have hid : l.map (usedIn w t offsets) = l.map id := List.map_congr_left fun td hmem => usedIn_of_not_mem (h td hmem)
  rw [hid, List.map_id]

theorem any_mayBeSpent_of_not_mem
    (h : ∀ td ∈ l, td.globalOutputIndex ∉ offsets) : l.any (mayBeSpent offsets) = false := by
  rw [List.any_eq_false]
  intro td hmem hspent
  simp only [mayBeSpent, Bool.and_eq_true, List.contains_iff_mem] at hspent
  exact h td hmem hspent.2

theorem track_found {found : Option ℕ} {offset : UInt64}
    (h : ∀ i, found = some i ↔ (l.map TransferDetails.globalOutputIndex)[i]? = some offset) (txs : List Hash) :
    (found.elim (some (l, txs)) fun idx => (l[idx]?).map fun td =>
        (l.set idx (ringMember w t (td, txs)).1, (ringMember w t (td, txs)).2)) =
      some (l.map (usedIn w t [offset]), keptIf w t (l.any (mayBeSpent [offset])) txs) := by
  have hother : ∀ i td, l[i]? = some td → found ≠ some i → td.globalOutputIndex ∉ [offset] := by
    intro i td htd hne hmem
    apply hne
    rw [h, List.getElem?_map, htd, Option.map_some, List.mem_singleton.mp hmem]
  cases hfound : found with
  | none =>
    have hnone : ∀ td ∈ l, td.globalOutputIndex ∉ [offset] := by
      intro td hmem
      obtain ⟨i, hi⟩ := List.getElem?_of_mem hmem
      exact hother i td hi (by rw [hfound]; rintro ⟨⟩)
    rw [map_usedIn_of_not_mem hnone, any_mayBeSpent_of_not_mem hnone]
    rfl
  | some idx =>
    have hidx := (h idx).mp hfound
    rw [List.getElem?_map] at hidx
    obtain ⟨td, htd, rfl⟩ := Option.map_eq_some_iff.mp hidx
    obtain ⟨hlt, hget⟩ := List.getElem?_eq_some_iff.mp htd
    have hset : l.set idx (usedIn w t [td.globalOutputIndex] td) = l.map (usedIn w t [td.globalOutputIndex]) := by
      apply List.ext_getElem?
      intro i
      rw [List.getElem?_set, List.getElem?_map]
      split_ifs with hi
      · rw [← hi, htd, Option.map_some]
      · cases hother' : l[i]? with
        | none => rfl
        | some td' =>
          have hnot := hother i td' hother' (by rw [hfound]; exact fun heq => hi (Option.some_inj.mp heq))
          rw [Option.map_some, usedIn_of_not_mem hnot]
    have hany : l.any (mayBeSpent [td.globalOutputIndex]) = !td.keyImageKnown := by
      rw [Bool.eq_iff_iff, List.any_eq_true]
      constructor
      · rintro ⟨td', hmem, hspent⟩
        obtain ⟨i, hi⟩ := List.getElem?_of_mem hmem
        simp only [mayBeSpent, Bool.and_eq_true, List.contains_iff_mem] at hspent
        have hsame : found = some i := by
          by_contra hne
          exact hother i td' hi hne hspent.2
        rw [hfound, Option.some_inj] at hsame
        rw [← hsame, htd, Option.some_inj] at hi
        exact hi ▸ hspent.1
      · intro hknown
        refine ⟨td, List.mem_of_getElem? htd, ?_⟩
        simp [mayBeSpent, hknown]
    rw [Option.elim_some, htd, Option.map_some, ringMember_eq, hset, hany]

theorem trackCached_eq {cache : OutputTrackerCache} {amount : UInt64}
    (h : ∀ offset ∈ offsets, ∀ i, cache.find? (amount, offset) = some i ↔
      (l.map TransferDetails.globalOutputIndex)[i]? = some offset) (txs : List Hash) :
    trackCached w cache t amount offsets (l, txs) =
      some (l.map (usedIn w t offsets), keptIf w t (l.any (mayBeSpent offsets)) txs) := by
  induction offsets generalizing l txs with
  | nil =>
    rw [map_usedIn_of_not_mem fun _ _ => List.not_mem_nil, any_mayBeSpent_of_not_mem fun _ _ => List.not_mem_nil]
    rfl
  | cons offset offsets ih =>
    have hone := track_found (w := w) (t := t) (h offset List.mem_cons_self) txs
    have hrest := ih (l := l.map (usedIn w t [offset])) (fun offset' hmem i => by
      rw [List.map_map, show TransferDetails.globalOutputIndex ∘ usedIn w t [offset] = TransferDetails.globalOutputIndex from
        funext (usedIn_globalOutputIndex _)]
      exact h offset' (List.mem_cons_of_mem _ hmem) i) (keptIf w t (l.any (mayBeSpent [offset])) txs)
    rw [keptIf_keptIf, any_mayBeSpent_cons, map_usedIn_map_usedIn, List.singleton_append] at hrest
    rw [← hrest, trackCached]
    cases hfind : cache.find? (amount, offset) with
    | none =>
      rw [hfind, Option.elim_none] at hone
      rw [← Option.some_inj.mp hone]
    | some idx =>
      rw [hfind, Option.elim_some] at hone
      obtain ⟨td, htd, hset⟩ := Option.map_eq_some_iff.mp hone
      simp only [htd]
      rw [← hset]
      rfl

end

section

variable (w : TrackingSettings)

def Tracked.cacheKeys (s : Tracked) : List (UInt64 × UInt64) := s.transfers.map TransferDetails.cacheKey

def Tracked.uncached (s : Tracked) : Tracking := ⟨s, none⟩

def Tracked.cached (s : Tracked) : Tracking := ⟨s, some (createOutputTrackerCache s.transfers)⟩

/-- The keys of the cache and the amounts of the inputs are those of the outputs, and no output is replaced. -/
def TrackingStep.Regular (s : Tracked) : TrackingStep → Prop
  | .gotMoney _ => True
  | .receive t _ out => t.pool = false → ∀ vout, t.tx.vout[out.o]? = some vout →
      (s.pubKeys.find? out.pub = none → (vout.amount = 0 ∨ ¬(t.minerTx ∧ t.tx.version = 2)) ∧
        ∀ g, t.oIndices[out.o]? = some g → (vout.amount, g) ∉ s.cacheKeys) ∧
      ∀ k, s.pubKeys.find? out.pub = some k → ∀ td, s.transfers[k]? = some td → td.spent ∨ td.amount ≥ out.amount
  | .input t inToKey =>
      (∀ k, s.keyImages.find? inToKey.kImage = some k → ∀ td, s.transfers[k]? = some td →
        td.rct ∨ inToKey.amount = 0 ∨ inToKey.amount = td.amount) ∧
      (t.pool = false → w.trackUses ∨ w.backgroundSyncing → ∀ key ∈ s.cacheKeys,
        key.2 ∈ relativeOutputOffsetsToAbsolute inToKey.keyOffsets → key.1 = inToKey.amount)

structure Agrees (step : Tracking → Option Tracking) (s : Tracked) : Prop where
  cached : step s.cached = (step s.uncached).map fun s' => s'.toTracked.cached
  uncached : ∀ s', step s.uncached = some s' → s'.cache = none
  nodup : ∀ s', step s.uncached = some s' → s'.cacheKeys.Nodup

variable {w} {s : Tracked} {t : ScannedTx}

theorem agrees_of_keys {step : Tracking → Option Tracking} (result : Option Tracked) (hnodup : s.cacheKeys.Nodup)
    (hcached : step s.cached = result.map (⟨·, s.cached.cache⟩)) (huncached : step s.uncached = result.map (⟨·, none⟩))
    (hkeys : ∀ s', result = some s' → s'.cacheKeys = s.cacheKeys) : Agrees step s := by
  refine ⟨?_, fun s' hs' => ?_, fun s' hs' => ?_⟩
  · rw [hcached, huncached, Option.map_map]
    apply Option.map_congr
    intro s' hs'
    have hcache : createOutputTrackerCache s.transfers = createOutputTrackerCache s'.transfers :=
      createOutputTrackerCache_congr (hkeys s' hs').symm
    simp only [Function.comp_apply, Tracked.cached, hcache]
  · rw [huncached] at hs'
    obtain ⟨s₁, _, rfl⟩ := Option.map_eq_some_iff.mp hs'
    rfl
  · rw [huncached] at hs'
    obtain ⟨s₁, hs₁, rfl⟩ := Option.map_eq_some_iff.mp hs'
    exact (hkeys s₁ hs₁).symm ▸ hnodup

theorem agrees_gotMoney (hnodup : s.cacheKeys.Nodup) : Agrees (fun s => TrackingStep.apply w s (.gotMoney t)) s := by
  refine agrees_of_keys (gotMoney w s t) hnodup rfl rfl fun s' hs' => ?_
  rw [gotMoney] at hs'
  split_ifs at hs'
  · cases hs'
    rfl
  · cases hs'
    rfl

variable {out : ScannedOut} {inToKey : TxinToKey}

theorem newTransfer_cacheKey {pkIndex : ℕ} {vout : TxOut} (g : UInt64)
    (h : vout.amount = 0 ∨ ¬(t.minerTx ∧ t.tx.version = 2)) : (newTransfer w t pkIndex out vout g).cacheKey = (vout.amount, g) := by
  by_cases hzero : vout.amount = 0
  · simp [TransferDetails.cacheKey, newTransfer, hzero]
  · have hplain := h.resolve_left hzero
    simp [TransferDetails.cacheKey, newTransfer, hzero, hplain]

theorem receive_cases {pkIndex : ℕ} (hreg : (TrackingStep.receive t pkIndex out).Regular w s)
    {p : Tracked × Option ((UInt64 × UInt64) × ℕ)} (hp : receive w s t pkIndex out = some p) :
    p = (s, none) ∨ ∃ td, p.1.transfers = s.transfers ++ [td] ∧ p.2 = some (td.cacheKey, s.transfers.length) ∧
      td.cacheKey ∉ s.cacheKeys := by
  rw [receive] at hp
  obtain ⟨vout, hvout, hp⟩ := Option.bind_eq_some_iff.mp hp
  cases hfind : s.pubKeys.find? out.pub with
  | none =>
    simp only [hfind] at hp
    split_ifs at hp with hpool
    · exact Or.inl (Option.some_inj.mp hp).symm
    · obtain ⟨g, hg, hp⟩ := Option.bind_eq_some_iff.mp hp
      obtain ⟨hplain, hfresh⟩ := (hreg (Bool.eq_false_iff.mpr hpool) vout hvout).1 hfind
      cases hp
      refine Or.inr ⟨newTransfer w t pkIndex out vout g, rfl, ?_, ?_⟩
      · rw [newTransfer_cacheKey g hplain]
      · rw [newTransfer_cacheKey g hplain]
        exact hfresh g hg
  | some idx =>
    simp only [hfind] at hp
    obtain ⟨td, htd, hp⟩ := Option.bind_eq_some_iff.mp hp
    split_ifs at hp with hold hpool
    · exact Or.inl (Option.some_inj.mp hp).symm
    · exact Or.inl (Option.some_inj.mp hp).symm
    · exact absurd ((hreg (Bool.eq_false_iff.mpr hpool) vout hvout).2 idx hfind td htd) hold

theorem agrees_receive {pkIndex : ℕ} (hnodup : s.cacheKeys.Nodup)
    (hreg : (TrackingStep.receive t pkIndex out).Regular w s) :
    Agrees (fun s => TrackingStep.apply w s (.receive t pkIndex out)) s := by
  refine ⟨?_, fun s' hs' => ?_, fun s' hs' => ?_⟩
  · simp only [TrackingStep.apply, Option.map_map]
    apply Option.map_congr
    intro p hp
    rcases receive_cases hreg hp with rfl | ⟨td, htransfers, hentry, _⟩
    · rfl
    · simp only [Function.comp_apply, hentry, Option.elim_some, Tracked.cached, Option.map_some, htransfers,
        createOutputTrackerCache_concat]
  · obtain ⟨p, _, rfl⟩ := Option.map_eq_some_iff.mp hs'
    cases p.2 <;> rfl
  · obtain ⟨p, hp, rfl⟩ := Option.map_eq_some_iff.mp hs'
    rcases receive_cases hreg hp with rfl | ⟨td, htransfers, _, hfresh⟩
    · exact hnodup
    · simp only [Tracked.cacheKeys, htransfers, List.map_append, List.map_singleton]
      rw [← List.concat_eq_append]
      exact hnodup.concat hfresh

theorem map_set_of_eq {α β : Type} {f : α → β} {l : List α} {k : ℕ} {x y : α} (hx : l[k]? = some x) (hf : f y = f x) :
    (l.set k y).map f = l.map f := by
  apply List.ext_getElem?
  intro i
  rw [List.getElem?_map, List.getElem?_map]
  by_cases hi : k = i
  · rw [← hi, List.getElem?_set_self (List.getElem?_eq_some_iff.mp hx).1, hx, Option.map_some, Option.map_some, hf]
  · rw [List.getElem?_set_ne hi]

theorem spend_cacheKeys (hreg : (TrackingStep.input t inToKey).Regular w s) {s' : Tracked}
    (hs' : spend w s t inToKey = some s') : s'.cacheKeys = s.cacheKeys := by
  rw [spend] at hs'
  cases hfind : s.keyImages.find? inToKey.kImage with
  | none =>
    simp only [hfind] at hs'
    cases hs'
    rfl
  | some k =>
    simp only [hfind] at hs'
    obtain ⟨td, htd, hs'⟩ := Option.bind_eq_some_iff.mp hs'
    cases hs'
    apply map_set_of_eq htd
    simp only [TransferDetails.cacheKey]
    rcases hreg.1 k hfind td htd with hrct | hzero | hsame
    · simp only [hrct, if_true]
    · have hamount : ¬(inToKey.amount > 0 ∧ inToKey.amount ≠ td.amount) := fun hdiff =>
        absurd hdiff.1 (by rw [hzero]; decide)
      simp only [if_neg hamount]
    · have hamount : ¬(inToKey.amount > 0 ∧ inToKey.amount ≠ td.amount) := fun hdiff => hdiff.2 hsame
      simp only [if_neg hamount]

def Tracked.afterRing (s : Tracked) (w : TrackingSettings) (t : ScannedTx) (offsets : List UInt64) : Tracked :=
  { s with
    transfers := s.transfers.map (usedIn w t offsets)
    backgroundTxs := keptIf w t (s.transfers.any (mayBeSpent offsets)) s.backgroundTxs }

theorem Tracked.cacheKeys_afterRing (offsets : List UInt64) : (s.afterRing w t offsets).cacheKeys = s.cacheKeys := by
  rw [cacheKeys, afterRing, List.map_map, cacheKeys]
  apply List.map_congr_left
  intro td _
  exact usedIn_cacheKey offsets td

theorem agrees_trackRing (hnodup : s.cacheKeys.Nodup)
    (hring : ∀ key ∈ s.cacheKeys, key.2 ∈ relativeOutputOffsetsToAbsolute inToKey.keyOffsets → key.1 = inToKey.amount) :
    Agrees (fun s => trackRing w s t inToKey) s := by
  have hfind : ∀ offset ∈ relativeOutputOffsetsToAbsolute inToKey.keyOffsets, ∀ i,
      (createOutputTrackerCache s.transfers).find? (inToKey.amount, offset) = some i ↔
        (s.transfers.map TransferDetails.globalOutputIndex)[i]? = some offset := by
    intro offset hoffset i
    rw [find?_createOutputTrackerCache hnodup, List.getElem?_map, List.getElem?_map]
    cases hi : s.transfers[i]? with
    | none => exact iff_of_false (by rintro ⟨⟩) (by rintro ⟨⟩)
    | some td =>
      rw [Option.map_some, Option.map_some, Option.some_inj, Option.some_inj]
      constructor
      · exact fun heq => congrArg Prod.snd heq
      · rintro rfl
        exact Prod.ext (hring td.cacheKey (List.mem_map_of_mem (List.mem_of_getElem? hi)) hoffset) rfl
  refine agrees_of_keys (some (s.afterRing w t (relativeOutputOffsetsToAbsolute inToKey.keyOffsets))) hnodup ?_ ?_ ?_
  · simp only [trackRing, Tracked.cached, trackCached_eq hfind]
    rfl
  · simp only [trackRing, Tracked.uncached, trackUncached_eq]
    rfl
  · rintro s' hs'
    cases hs'
    exact s.cacheKeys_afterRing _

theorem agrees_input (hnodup : s.cacheKeys.Nodup) (hreg : (TrackingStep.input t inToKey).Regular w s) :
    Agrees (fun s => TrackingStep.apply w s (.input t inToKey)) s := by
  have hinput : ∀ s' : Tracking, s'.toTracked = s → TrackingStep.apply w s' (.input t inToKey) =
      (spend w s t inToKey).bind fun s₁ =>
        if tracksRing w s t inToKey then trackRing w ⟨s₁, s'.cache⟩ t inToKey else some ⟨s₁, s'.cache⟩ := by
    rintro s' rfl
    rfl
  cases hspend : spend w s t inToKey with
  | none =>
    refine agrees_of_keys none hnodup ?_ ?_ fun s' hs' => by cases hs'
    · rw [hinput s.cached rfl, hspend]
      rfl
    · rw [hinput s.uncached rfl, hspend]
      rfl
  | some s₁ =>
    have hkeys := spend_cacheKeys hreg hspend
    have hcache : s.cached.cache = s₁.cached.cache := congrArg some (createOutputTrackerCache_congr hkeys.symm)
    by_cases htracked : tracksRing w s t inToKey
    · have hcached : TrackingStep.apply w s.cached (.input t inToKey) = trackRing w s₁.cached t inToKey := by
        rw [hinput s.cached rfl, hspend, Option.bind_some, if_pos htracked, hcache]
        rfl
      have huncached : TrackingStep.apply w s.uncached (.input t inToKey) = trackRing w s₁.uncached t inToKey := by
        rw [hinput s.uncached rfl, hspend, Option.bind_some, if_pos htracked]
        rfl
      have hring : Agrees (fun s => trackRing w s t inToKey) s₁ := by
        apply agrees_trackRing (hkeys.symm ▸ hnodup)
        rw [hkeys]
        simp only [tracksRing, Bool.and_eq_true, Bool.or_eq_true, Bool.not_eq_true'] at htracked
        exact hreg.2 htracked.1 (htracked.2.imp_right And.left)
      exact ⟨by rw [hcached, huncached]; exact hring.cached, fun s' hs' => hring.uncached s' (huncached ▸ hs'),
        fun s' hs' => hring.nodup s' (huncached ▸ hs')⟩
    · refine agrees_of_keys (some s₁) hnodup ?_ ?_ fun s' hs' => ?_
      · rw [hinput s.cached rfl, hspend, Option.bind_some, if_neg htracked]
        rfl
      · rw [hinput s.uncached rfl, hspend, Option.bind_some, if_neg htracked]
        rfl
      · cases hs'
        exact hkeys

theorem TrackingStep.Regular.agrees {step : TrackingStep} (hreg : step.Regular w s) (hnodup : s.cacheKeys.Nodup) :
    Agrees (fun s => step.apply w s) s := by
  cases step with
  | gotMoney t => exact agrees_gotMoney hnodup
  | receive t pkIndex out => exact agrees_receive hnodup hreg
  | input t inToKey => exact agrees_input hnodup hreg

theorem foldlM_agrees {steps : List TrackingStep} (hnodup : s.cacheKeys.Nodup)
    (hreg : ∀ done step rest, steps = done ++ step :: rest →
      ∀ s', done.foldlM (TrackingStep.apply w) s.uncached = some s' → step.Regular w s'.toTracked) :
    steps.foldlM (TrackingStep.apply w) s.cached =
      (steps.foldlM (TrackingStep.apply w) s.uncached).map fun s' => s'.toTracked.cached := by
  induction steps generalizing s with
  | nil => rfl
  | cons step steps ih =>
    have hfirst : Agrees (fun s => step.apply w s) s := (hreg [] step steps rfl s.uncached rfl).agrees hnodup
    rw [List.foldlM_cons, List.foldlM_cons, hfirst.cached]
    cases hstep : step.apply w s.uncached with
    | none => rfl
    | some s' =>
      have hnone := hfirst.uncached s' hstep
      have huncached : s'.toTracked.uncached = s' := by rw [Tracked.uncached, ← hnone]
      have hrest := ih (s := s'.toTracked) (hfirst.nodup s' hstep) fun done next rest heq s'' hdone => ?_
      · rw [huncached] at hrest
        exact hrest
      · refine hreg (step :: done) next rest (congrArg (step :: ·) heq) s'' ?_
        rw [List.foldlM_cons, hstep, ← huncached]
        exact hdone

end

theorem tracker_cache_agrees (w : TrackingSettings) (s : Tracked) (txs : List ScannedTx) (hnodup : s.cacheKeys.Nodup)
    (hreg : ∀ done step rest, txs.flatMap ScannedTx.steps = done ++ step :: rest →
      ∀ s', done.foldlM (TrackingStep.apply w) s.uncached = some s' → step.Regular w s'.toTracked) :
    processNewTransactions w s.cached txs = (processNewTransactions w s.uncached txs).map fun s' => s'.toTracked.cached :=
  foldlM_agrees hnodup hreg

def fullWallet : TrackingSettings := ⟨true, false, false, false, ∅⟩

def newTracked : Tracked := ⟨[], ∅, ∅, []⟩

def oneOutputTx (minerTx : Bool) (amount : UInt64) : ScannedTx where
  txid := nullHash
  tx := ⟨2, 0, [], [⟨amount, .toKey (Blob.zero 32)⟩], []⟩
  oIndices := [9]
  height := 100
  minerTx
  pool := false
  received := [[⟨0, Blob.zero 32, Blob.zero 32, 5, ⟨0, 0⟩⟩]]

theorem tracker_cache_agrees_ringct :
    processNewTransactions fullWallet newTracked.cached [oneOutputTx false 0] =
      (processNewTransactions fullWallet newTracked.uncached [oneOutputTx false 0]).map fun s' => s'.toTracked.cached := by
  refine tracker_cache_agrees fullWallet newTracked [oneOutputTx false 0] List.nodup_nil ?_
  rintro done step rest heq s' hs'
  cases done with
  | nil =>
    cases heq
    exact trivial
  | cons first done =>
    cases done with
    | nil =>
      cases heq
      cases hs'
      refine fun _ vout hvout => ⟨fun _ => ⟨Or.inr (fun h => absurd h.1 (by decide)), fun _ _ => List.not_mem_nil⟩, fun k hk => ?_⟩
      cases hk
    | cons second done =>
      have hlen : 2 = (first :: second :: done ++ step :: rest).length := congrArg List.length heq
      rw [List.length_append, List.length_cons, List.length_cons, List.length_cons] at hlen
      omega

theorem tracker_cache_coinbase :
    ((processNewTransactions fullWallet newTracked.cached [oneOutputTx true 5]).bind (·.cache)).map OrderedMap.entries =
        some [((5, 9), 0)] ∧
      (processNewTransactions fullWallet newTracked.cached [oneOutputTx true 5]).map
        (fun s' => (createOutputTrackerCache s'.transfers).entries) = some [((0, 9), 0)] := ⟨rfl, rfl⟩

end Velkavo.Wallet
