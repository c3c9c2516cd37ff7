import Velkavo.Containers.SetMap
import Velkavo.Effects.Checks

/-! One round of the multisig key exchange: which messages an account accepts and what it learns from them. -/

namespace Velkavo.Multisig

open Effects SetMap UnorderedMap

variable {S P : Type}

instance lawfulBEq_linearOrder [LinearOrder P] : LawfulBEq P := inferInstance

/-- A message as its constructors leave it. Only the first round carries a private key, and only the others carry
public keys. -/
structure KexMsg (S P : Type) where
  kexRound : ℕ
  signingPubkey : P
  msgPubkeys : List P
  msgPrivkey : S
  round_pos : 0 < kexRound

def multisigMaxSigners : ℕ := 16

structure Signers (P : Type) [LT P] where
  keys : List P
  sorted : keys.Pairwise (· < ·)
  two_le : 2 ≤ keys.length
  le_max : keys.length ≤ multisigMaxSigners

def checkMessagesRound (expandedMsgs : List (KexMsg S P)) (expectedRound : ℕ) : Except String Unit :=
  match expandedMsgs with
  | [] => .error "At least one input message expected."
  | first :: _ => do
    checkThrow (first.kexRound = expectedRound) "Messages don't have the expected kex round number."
    forM expandedMsgs fun expandedMsg =>
      checkThrow (expandedMsg.kexRound = first.kexRound) "All messages must have the same kex round number."

theorem checkMessagesRound_eq_ok {msgs : List (KexMsg S P)} {r : ℕ} {u : Unit} :
    checkMessagesRound msgs r = .ok u ↔ msgs ≠ [] ∧ ∀ msg ∈ msgs, msg.kexRound = r := by
  cases msgs with
  | nil => simp [checkMessagesRound]
  | cons first rest =>
    rw [checkMessagesRound, checkThrow_bind, forM_eq_ok]
    simp only [checkThrow_eq_ok]
    constructor
    · rintro ⟨rfl, h⟩
      exact ⟨List.cons_ne_nil _ _, h⟩
    · rintro ⟨-, h⟩
      have hfirst : first.kexRound = r := h first List.mem_cons_self
      exact ⟨hfirst, fun msg hmsg => (h msg hmsg).trans hfirst.symm⟩

def Recommends (excludePubkeys : List P) (msg : KexMsg S P) (key : P) : Prop :=
  if msg.kexRound = 1 then key = msg.signingPubkey else key ∈ msg.msgPubkeys ∧ key ∉ excludePubkeys

def Seen (basePubkey : P) (exclude : List P) (msgs : List (KexMsg S P)) (key origin : P) : Prop :=
  origin ≠ basePubkey ∧ ∃ msg ∈ msgs, origin = msg.signingPubkey ∧ Recommends exclude msg key

theorem seen_first {base key origin : P} {exclude : List P} {msgs : List (KexMsg S P)}
    (hround : ∀ msg ∈ msgs, msg.kexRound = 1) (h : Seen base exclude msgs key origin) : origin = key := by
  obtain ⟨-, msg, hmsg, rfl, hrec⟩ := h
  rw [Recommends, if_pos (hround msg hmsg)] at hrec
  exact hrec.symm

section

variable [LinearOrder P]

theorem Signers.nodup (signers : Signers P) : signers.keys.Nodup := signers.sorted.imp ne_of_lt

def sanitizeMsg (round : ℕ) (excludePubkeys : List P) (pubkeys : SetMap P P) (msg : KexMsg S P) : SetMap P P :=
  if round = 1 then pubkeys.insertAt msg.signingPubkey msg.signingPubkey
  else msg.msgPubkeys.foldl
    (fun pubkeys pubkey => if pubkey ∈ excludePubkeys then pubkeys else pubkeys.insertAt pubkey msg.signingPubkey)
    pubkeys

def multisigKexMsgsSanitizePubkeys (expandedMsgs : List (KexMsg S P)) (excludePubkeys : List P) :
    Except String (ℕ × SetMap P P) :=
  match expandedMsgs with
  | [] => .error "At least one input message expected."
  | first :: _ => do
    checkMessagesRound expandedMsgs first.kexRound
    return (first.kexRound, expandedMsgs.foldl (sanitizeMsg first.kexRound excludePubkeys) ∅)

def removeKeyFromMappedSets (keyToRemove : P) (keyset : SetMap P P) : SetMap P P :=
  keyset.eraseFromSets keyToRemove

/-- The `double` of the source is exact below the `int32` limit. -/
def nChooseK (n k : ℕ) : ℕ :=
  if n < k then 0 else if n.choose k > 2 ^ 31 - 1 then 0 else n.choose k

def evaluateMultisigKexRoundMsgs (basePubkey : P) (expectedRound : ℕ) (signers : Signers P)
    (expandedMsgs : List (KexMsg S P)) (excludePubkeys : List P) (incompleteSignerSet : Bool) :
    Except String (SetMap P P) := do
  checkThrow excludePubkeys.Nodup "Found duplicate pubkeys for exclusion unexpectedly."
  let (round, sanitized) ← multisigKexMsgsSanitizePubkeys expandedMsgs excludePubkeys
  checkThrow (round = expectedRound) ("Kex messages were for round [" ++ toString round ++
    "], but expected round is [" ++ toString expectedRound ++ "]")
  let pubkeyOriginsMap := removeKeyFromMappedSets basePubkey sanitized
  let numRecommendationsPerPubkeyRequired := if incompleteSignerSet then 1 else round
  forM pubkeyOriginsMap.entries fun pubkeyAndOrigins =>
    checkThrow (numRecommendationsPerPubkeyRequired ≤ pubkeyAndOrigins.2.size)
      "A pubkey recommended by multisig kex messages had an unexpected number of recommendations."
  let originPubkeysMap := pubkeyOriginsMap.transpose
  -- the subtraction is one of size_t
  let numSignersRequired :=
    if incompleteSignerSet then (2 ^ 64 + signers.keys.length - 1 - (round - 1)) % 2 ^ 64
    else signers.keys.length - 1
  checkThrow (numSignersRequired ≤ originPubkeysMap.entries.length)
    ("Number of unique other signers recommending pubkeys does not equal number of required other signers (kex round: "
      ++ toString round ++ ", num signers found: " ++ toString originPubkeysMap.entries.length ++
      ", num signers required: " ++ toString numSignersRequired ++ ").")
  let expectedRecommendationsOthers := nChooseK (signers.keys.length - 2) (round - 1)
  let expectedRecommendationsSelf := nChooseK (signers.keys.length - 1) (round - 1)
  checkThrow (0 < expectedRecommendationsSelf ∧ 0 < expectedRecommendationsOthers)
    "Bad num signers or round num (possibly numerical limits exceeded)."
  checkThrow (excludePubkeys.length = expectedRecommendationsSelf)
    "Local account did not recommend expected number of multisig keys."
  forM originPubkeysMap.entries fun originAndPubkeys => do
    checkThrow (originAndPubkeys.2.size = expectedRecommendationsOthers)
      "A multisig signer recommended an unexpected number of pubkeys."
    checkThrow (originAndPubkeys.1 ∈ signers.keys) "Multisig kex message with unexpected signer encountered."
  return pubkeyOriginsMap

variable {exclude : List P} {map : SetMap P P} {msgs : List (KexMsg S P)} {r : ℕ}

theorem rel_sanitizeMsg {msg : KexMsg S P} {key origin : P} :
    (sanitizeMsg msg.kexRound exclude map msg).Rel key origin ↔
      map.Rel key origin ∨ (origin = msg.signingPubkey ∧ Recommends exclude msg key) := by
  rw [sanitizeMsg, Recommends]
  split_ifs with hround
  · rw [rel_insertAt]
    tauto
  · induction msg.msgPubkeys generalizing map with
    | nil => simp
    | cons pubkey pubkeys ih =>
      rw [List.foldl_cons, ih, List.mem_cons]
      split_ifs with hex
      · have hne : key ∉ exclude → key ≠ pubkey := fun h heq => h (heq ▸ hex)
        tauto
      · rw [rel_insertAt]
        have hnot : key = pubkey → key ∉ exclude := fun heq => heq ▸ hex
        tauto

theorem rel_foldl_sanitizeMsg
    (hround : ∀ msg ∈ msgs, msg.kexRound = r) {key origin : P} :
    (msgs.foldl (sanitizeMsg r exclude) map).Rel key origin ↔
      map.Rel key origin ∨ ∃ msg ∈ msgs, origin = msg.signingPubkey ∧ Recommends exclude msg key := by
  induction msgs generalizing map with
  | nil => simp
  | cons msg msgs ih =>
    obtain ⟨hmsg, hmsgs⟩ := List.forall_mem_cons.mp hround
    rw [List.foldl_cons, ih hmsgs, ← hmsg, rel_sanitizeMsg, List.exists_mem_cons_iff, or_assoc]

theorem multisigKexMsgsSanitizePubkeys_eq_ok :
    multisigKexMsgsSanitizePubkeys msgs exclude = .ok (r, map) ↔
      (msgs ≠ [] ∧ ∀ msg ∈ msgs, msg.kexRound = r) ∧ map = msgs.foldl (sanitizeMsg r exclude) ∅ := by
  cases msgs with
  | nil => simp [multisigKexMsgsSanitizePubkeys]
  | cons first rest =>
    rw [multisigKexMsgsSanitizePubkeys, bind_eq_ok]
    constructor
    · rintro ⟨u, hcheck, hmap⟩
      cases hmap
      exact ⟨checkMessagesRound_eq_ok.mp hcheck, rfl⟩
    · rintro ⟨hmsgs, rfl⟩
      obtain rfl : first.kexRound = r := hmsgs.2 first List.mem_cons_self
      exact ⟨(), checkMessagesRound_eq_ok.mpr hmsgs, rfl⟩

theorem rel_removeKeyFromMappedSets
    (hround : ∀ msg ∈ msgs, msg.kexRound = r) {base key origin : P} :
    (removeKeyFromMappedSets base (msgs.foldl (sanitizeMsg r exclude) ∅)).Rel key origin ↔
      Seen base exclude msgs key origin := by
  rw [removeKeyFromMappedSets, rel_eraseFromSets, rel_foldl_sanitizeMsg hround, or_iff_right (not_rel_empty _ _), Seen]

structure Evaluated (signers : Signers P) (r : ℕ) (exclude : List P) (map : SetMap P P) : Prop where
  recommended : ∀ key s, map.find? key = some s → r ≤ s.size
  present : signers.keys.length - 1 ≤ map.transpose.keys.length
  others_pos : 0 < nChooseK (signers.keys.length - 2) (r - 1)
  self_pos : 0 < nChooseK (signers.keys.length - 1) (r - 1)
  local_size : exclude.length = nChooseK (signers.keys.length - 1) (r - 1)
  others_size : ∀ origin s, map.transpose.find? origin = some s →
    s.size = nChooseK (signers.keys.length - 2) (r - 1)
  known : ∀ origin ∈ map.transpose.keys, origin ∈ signers.keys

theorem evaluateMultisigKexRoundMsgs_eq_ok {base : P} {signers : Signers P} :
    evaluateMultisigKexRoundMsgs base r signers msgs exclude false = .ok map ↔
      exclude.Nodup ∧ (msgs ≠ [] ∧ ∀ msg ∈ msgs, msg.kexRound = r) ∧
        map = removeKeyFromMappedSets base (msgs.foldl (sanitizeMsg r exclude) ∅) ∧
        Evaluated signers r exclude map := by
  have hchecks : ∀ map' : SetMap P P, ((∀ x ∈ map'.entries, r ≤ x.2.size) ∧
      signers.keys.length - 1 ≤ map'.transpose.entries.length ∧
      (0 < nChooseK (signers.keys.length - 1) (r - 1) ∧ 0 < nChooseK (signers.keys.length - 2) (r - 1)) ∧
      exclude.length = nChooseK (signers.keys.length - 1) (r - 1) ∧
      (∀ x ∈ map'.transpose.entries, x.2.size = nChooseK (signers.keys.length - 2) (r - 1) ∧ x.1 ∈ signers.keys) ∧
      map' = map) ↔ map = map' ∧ Evaluated signers r exclude map := by
    intro map'
    constructor
    · rintro ⟨hrec, hpres, ⟨hself, hothers⟩, hlocal, hcheck, rfl⟩
      refine ⟨rfl, ⟨fun key s h => hrec (key, s) (mem_entries_iff.mpr h), ?_, hothers, hself, hlocal,
        fun origin s h => (hcheck (origin, s) (mem_entries_iff.mpr h)).1, ?_⟩⟩
      · rw [length_keys]
        exact hpres
      · intro origin horigin
        obtain ⟨s, hs⟩ := mem_keys_iff.mp horigin
        exact (hcheck (origin, s) (mem_entries_iff.mpr hs)).2
    · rintro ⟨rfl, h⟩
      refine ⟨fun x hx => h.recommended x.1 x.2 (mem_entries_iff.mp hx), ?_, ⟨h.self_pos, h.others_pos⟩, h.local_size,
        fun x hx => ⟨h.others_size x.1 x.2 (mem_entries_iff.mp hx), h.known x.1 (List.mem_map_of_mem hx)⟩, rfl⟩
      have hpres := h.present
      rw [length_keys] at hpres
      exact hpres
  rw [evaluateMultisigKexRoundMsgs, checkThrow_bind, bind_eq_ok]
  simp only [Bool.false_eq_true, if_false, checkThrow_bind, forM_bind, checkThrow_eq_ok, pure_eq_ok]
  apply and_congr_right
  intro _
  constructor
  · rintro ⟨⟨round, sanitized⟩, hsan, rfl, h⟩
    obtain ⟨hmsgs, rfl⟩ := multisigKexMsgsSanitizePubkeys_eq_ok.mp hsan
    exact ⟨hmsgs, (hchecks _).mp h⟩
  · rintro ⟨hmsgs, h⟩
    exact ⟨(r, _), multisigKexMsgsSanitizePubkeys_eq_ok.mpr ⟨hmsgs, rfl⟩, rfl, (hchecks _).mpr h⟩

end

end Velkavo.Multisig
