import Velkavo.Multisig.KexRound

/-! How many keys a round leaves, and how often each is recommended. -/

namespace Velkavo.Multisig

open SetMap UnorderedMap

variable {S P : Type} [LinearOrder P]

theorem nChooseK_of_pos {n k : ℕ} (h : 0 < nChooseK n k) : nChooseK n k = n.choose k := by
  rw [nChooseK] at h ⊢
  split_ifs at h ⊢
  · cases h
  · cases h
  · rfl

def recommenders (msgs : List (KexMsg S P)) (key : P) : Finset P :=
  ((msgs.filter fun msg => key ∈ msg.msgPubkeys).map KexMsg.signingPubkey).toFinset

def Balanced (others : Finset P) (r : ℕ) (map : SetMap P P) : Prop :=
  map.entries.length = others.card.choose r ∧
    ∀ e ∈ map.entries, e.2.size = r ∧ ∀ origin ∈ e.2, origin ∈ others

variable {base : P} {r : ℕ} {signers : Signers P} {msgs : List (KexMsg S P)} {exclude : List P} {map : SetMap P P}

theorem card_others (hbase : base ∈ signers.keys) :
    (signers.keys.toFinset.erase base).card = signers.keys.length - 1 := by
  rw [Finset.card_erase_of_mem (List.mem_toFinset.mpr hbase), List.toFinset_card_of_nodup signers.nodup]

theorem Evaluated.origins (h : Evaluated signers r exclude map) (hbase : base ∈ signers.keys)
    (hmap : ∀ key, ¬map.Rel key base) :
    map.transpose.keys.toFinset = signers.keys.toFinset.erase base := by
  apply Finset.eq_of_subset_of_card_le
  · intro origin horigin
    have hkey : origin ∈ map.transpose.keys := List.mem_toFinset.mp horigin
    obtain ⟨key, hrel⟩ := (occupied_transpose map).mem_keys_iff.mp hkey
    apply Finset.mem_erase.mpr
    refine ⟨?_, List.mem_toFinset.mpr (h.known origin hkey)⟩
    rintro rfl
    exact hmap key (rel_transpose.mp hrel)
  · rw [card_others hbase, List.toFinset_card_of_nodup map.transpose.nodup_keys]
    exact h.present

theorem Evaluated.sum_size (h : Evaluated signers r exclude map) (hr : 0 < r) (hbase : base ∈ signers.keys)
    (hmap : ∀ key, ¬map.Rel key base) (hocc : map.Occupied) :
    (map.entries.map fun e => e.2.size).sum = (signers.keys.length - 1).choose r * r := by
  have hlength : map.transpose.entries.length = signers.keys.length - 1 := by
    rw [← card_others hbase, ← h.origins hbase hmap, List.toFinset_card_of_nodup map.transpose.nodup_keys,
      length_keys]
  have hsizes : ∀ e ∈ map.transpose.entries, e.2.size = (signers.keys.length - 2).choose (r - 1) := by
    rintro ⟨origin, s⟩ he
    rw [← nChooseK_of_pos h.others_pos]
    exact h.others_size origin s (mem_entries_iff.mp he)
  obtain ⟨m, hm⟩ : ∃ m, signers.keys.length = m + 2 := ⟨_, (Nat.sub_add_cancel signers.two_le).symm⟩
  obtain ⟨k, rfl⟩ : ∃ k, r = k + 1 := ⟨_, (Nat.sub_add_cancel hr).symm⟩
  rw [← sum_size_transpose map hocc, sum_size_eq_mul hsizes, hlength, hm]
  exact Nat.add_one_mul_choose_eq m k

theorem mem_recommenders_iff {key origin : P} (hr : r ≠ 1) (hround : ∀ msg ∈ msgs, msg.kexRound = r)
    (hkey : key ∉ exclude) :
    origin ∈ (recommenders msgs key).erase base ↔ Seen base exclude msgs key origin := by
  rw [Finset.mem_erase, recommenders, List.mem_toFinset, List.mem_map, Seen]
  apply and_congr_right
  intro _
  constructor
  · rintro ⟨msg, hmsg, rfl⟩
    obtain ⟨hmem, hpub⟩ := List.mem_filter.mp hmsg
    refine ⟨msg, hmem, rfl, ?_⟩
    rw [Recommends, if_neg (hround msg hmem ▸ hr)]
    exact ⟨of_decide_eq_true hpub, hkey⟩
  · rintro ⟨msg, hmem, rfl, hrec⟩
    rw [Recommends, if_neg (hround msg hmem ▸ hr)] at hrec
    exact ⟨msg, List.mem_filter.mpr ⟨hmem, decide_eq_true hrec.1⟩, rfl⟩

section

variable (hround : ∀ msg ∈ msgs, msg.kexRound = r)
  (hrel : ∀ key origin, map.Rel key origin ↔ Seen base exclude msgs key origin)

include hround hrel

theorem size_eq_card_recommenders {key : P} {s : UnorderedSet P} (hr : r ≠ 1) (hkey : key ∉ exclude)
    (hfind : map.find? key = some s) : s.size = ((recommenders msgs key).erase base).card := by
  apply UnorderedSet.size_eq_card
  intro origin
  rw [mem_recommenders_iff hr hround hkey, ← hrel, rel_iff_of_find? hfind]

theorem recommenders_of_find?_none {key : P} (hr : r ≠ 1) (hkey : key ∉ exclude) (hfind : map.find? key = none) :
    (recommenders msgs key).erase base = ∅ := by
  apply Finset.eq_empty_of_forall_notMem
  intro origin horigin
  obtain ⟨s, hs, -⟩ := (hrel key origin).mpr ((mem_recommenders_iff hr hround hkey).mp horigin)
  rw [hfind] at hs
  cases hs

theorem size_le (hocc : map.Occupied)
    (hcond : r ≠ 1 → ∀ key ∉ exclude, ((recommenders msgs key).erase base).card ≤ r) {key : P} {s : UnorderedSet P}
    (hfind : map.find? key = some s) : s.size ≤ r := by
  by_cases hr : r = 1
  · subst hr
    have hsub : s.elements.toFinset ⊆ {key} := by
      intro origin horigin
      have hmem : origin ∈ s := List.mem_toFinset.mp horigin
      rw [Finset.mem_singleton]
      exact seen_first hround ((hrel key origin).mp ⟨s, hfind, hmem⟩)
    rw [UnorderedSet.size_eq_card fun x => List.mem_toFinset.symm]
    exact (Finset.card_le_card hsub).trans (Finset.card_singleton key).le
  · obtain ⟨origin, horigin⟩ := hocc key s hfind
    obtain ⟨-, msg, hmsg, -, hrec⟩ := (hrel key origin).mp ⟨s, hfind, horigin⟩
    rw [Recommends, if_neg (hround msg hmsg ▸ hr)] at hrec
    rw [size_eq_card_recommenders hround hrel hr hrec.2 hfind]
    exact hcond hr key hrec.2

end

theorem evaluateMultisigKexRoundMsgs_balanced_iff (hbase : base ∈ signers.keys)
    (h : evaluateMultisigKexRoundMsgs base r signers msgs exclude false = .ok map) :
    Balanced (signers.keys.toFinset.erase base) r map ↔
      (r ≠ 1 → ∀ key ∉ exclude, ((recommenders msgs key).erase base).card ≤ r) := by
  obtain ⟨-, ⟨hne, hround⟩, hmap, heval⟩ := evaluateMultisigKexRoundMsgs_eq_ok.mp h
  have hr : 0 < r := by
    obtain ⟨msg, hmsg⟩ := List.exists_mem_of_ne_nil msgs hne
    exact hround msg hmsg ▸ msg.round_pos
  have hrel : ∀ key origin, map.Rel key origin ↔ Seen base exclude msgs key origin := fun _ _ => by
    rw [hmap]
    exact rel_removeKeyFromMappedSets hround
  have hocc : map.Occupied := by
    rw [hmap]
    exact occupied_eraseFromSets _ _
  have hlocal : ∀ key, ¬map.Rel key base := fun key hkey => ((hrel key base).mp hkey).1 rfl
  constructor
  · rintro ⟨-, hsizes⟩ hr1 key hkey
    cases hfind : map.find? key with
    | none =>
      rw [recommenders_of_find?_none hround hrel hr1 hkey hfind]
      exact Nat.zero_le r
    | some s =>
      rw [← size_eq_card_recommenders hround hrel hr1 hkey hfind]
      exact (hsizes (key, s) (mem_entries_iff.mpr hfind)).1.le
  · intro hcond
    have hsize : ∀ e ∈ map.entries, e.2.size = r := fun e he =>
      le_antisymm (size_le hround hrel hocc hcond (mem_entries_iff.mp he))
        (heval.recommended e.1 e.2 (mem_entries_iff.mp he))
    constructor
    · have hsum := heval.sum_size hr hbase hlocal hocc
      rw [sum_size_eq_mul hsize] at hsum
      rw [card_others hbase]
      exact Nat.eq_of_mul_eq_mul_right hr hsum
    · intro e he
      refine ⟨hsize e he, fun origin horigin => ?_⟩
      rw [← heval.origins hbase hlocal, List.mem_toFinset, (occupied_transpose map).mem_keys_iff]
      exact ⟨e.1, rel_transpose.mpr ⟨e.2, mem_entries_iff.mp he, horigin⟩⟩

def fourSigners : Signers ℕ := ⟨[1, 2, 3, 4], by decide, by decide, by decide⟩

def secondRoundMsg (signer : ℕ) (pubkeys : List ℕ) : KexMsg ℕ ℕ := ⟨2, signer, pubkeys, 0, by decide⟩

def pairMsgs : List (KexMsg ℕ ℕ) :=
  [secondRoundMsg 2 [12, 23, 24], secondRoundMsg 3 [13, 23, 34], secondRoundMsg 4 [14, 24, 34]]

theorem evaluateMultisigKexRoundMsgs_pairs :
    ∃ map, evaluateMultisigKexRoundMsgs 1 2 fourSigners pairMsgs [12, 13, 14] false = .ok map ∧
      Balanced (fourSigners.keys.toFinset.erase 1) 2 map := by
  have hbase : 1 ∈ fourSigners.keys := by decide
  have hrun : evaluateMultisigKexRoundMsgs 1 2 fourSigners pairMsgs [12, 13, 14] false =
      .ok (removeKeyFromMappedSets 1 (pairMsgs.foldl (sanitizeMsg 2 [12, 13, 14]) ∅)) := rfl
  refine ⟨_, hrun, (evaluateMultisigKexRoundMsgs_balanced_iff hbase hrun).mpr ?_⟩
  intro _ key hkey
  by_cases h23 : key = 23
  · subst h23
    decide
  by_cases h24 : key = 24
  · subst h24
    decide
  by_cases h34 : key = 34
  · subst h34
    decide
  simp only [List.mem_cons, List.not_mem_nil, or_false, not_or] at hkey
  simp [recommenders, pairMsgs, secondRoundMsg, hkey, h23, h24, h34]

theorem evaluateMultisigKexRoundMsgs_two_keys :
    ∃ map, evaluateMultisigKexRoundMsgs 1 2 fourSigners
        [secondRoundMsg 2 [70, 71], secondRoundMsg 3 [70, 71], secondRoundMsg 4 [70, 71]] [12, 13, 14] false =
          .ok map ∧
      map.entries.length = 2 ∧ (∀ e ∈ map.entries, e.2.size = 3) ∧
      ¬Balanced (fourSigners.keys.toFinset.erase 1) 2 map := by
  refine ⟨_, rfl, by decide, by decide, ?_⟩
  rintro ⟨hlength, -⟩
  revert hlength
  decide

end Velkavo.Multisig
