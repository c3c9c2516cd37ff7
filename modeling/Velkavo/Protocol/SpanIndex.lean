import Velkavo.Protocol.BlockQueue

namespace Velkavo.Protocol

open Cryptonote

namespace BlockQueue

variable {κ β : Type} {q q' : BlockQueue κ β} {gone : UInt64 × Span κ β → Bool}

structure Indexed (q : BlockQueue κ β) : Prop where
  requested : ∀ h, q.requested h = true ↔ ∃ x ∈ q.blocks.entries, h ∈ x.2.hashes
  received : ∀ h, q.haveHash h = true ↔ ∃ x ∈ q.blocks.entries, x.2.blocks ≠ [] ∧ h ∈ x.2.hashes

theorem indexed_empty : (∅ : BlockQueue κ β).Indexed where
  requested _ := iff_of_false Bool.false_ne_true fun ⟨_, hx, _⟩ => absurd hx List.not_mem_nil
  received _ := iff_of_false Bool.false_ne_true fun ⟨_, hx, _⟩ => absurd hx List.not_mem_nil

variable {h : Hash} {x : UInt64 × Span κ β} {start : UInt64} {span : Span κ β}

theorem requested_iff : q.requested h = true ↔ h ∈ q.requestedHashes := decide_eq_true_iff

theorem haveHash_iff : q.haveHash h = true ↔ h ∈ q.haveBlocks.keys := by
  rw [haveHash, Option.isSome_iff_exists, UnorderedMap.mem_keys_iff]

theorem start_inj {y : UInt64 × Span κ β} (hx : x ∈ q.blocks.entries) (hy : y ∈ q.blocks.entries) (h : x.1 = y.1) :
    x = y := q.blocks.eq_of_key_eq hx hy (congrArg UInt64.toNat h)

theorem find?_none_iff : q.blocks.find? start = none ↔ ∀ x ∈ q.blocks.entries, x.1 ≠ start := by
  rw [OrderedMap.find?_eq_none_iff]
  exact forall₂_congr fun x _ => UInt64.toNat_inj.not

structure Erases (q q' : BlockQueue κ β) (gone : UInt64 × Span κ β → Bool) : Prop where
  entries : ∀ x, x ∈ q'.blocks.entries ↔ x ∈ q.blocks.entries ∧ gone x = false
  requested : ∀ h, q'.requested h = true ↔
    q.requested h = true ∧ ∀ x ∈ q.blocks.entries, gone x = true → h ∉ x.2.hashes
  received : ∀ h, q'.haveHash h = true ↔
    q.haveHash h = true ∧ ∀ x ∈ q.blocks.entries, gone x = true → h ∉ x.2.hashes

theorem requested_eraseBlock (j : UInt64 × Span κ β) :
    (q.eraseBlock j).requested h = true ↔ h ∉ j.2.hashes ∧ q.requested h = true := by
  rw [requested_iff, requested_iff]
  exact UnorderedSet.mem_foldl_erase

theorem haveHash_eraseBlock (j : UInt64 × Span κ β) :
    (q.eraseBlock j).haveHash h = true ↔ h ∉ j.2.hashes ∧ q.haveHash h = true := by
  rw [haveHash_iff, haveHash_iff]
  exact UnorderedMap.mem_keys_foldl_erase

theorem mem_eraseBlock {j : UInt64 × Span κ β} :
    x ∈ (q.eraseBlock j).blocks.entries ↔ x ∈ q.blocks.entries ∧ x.1 ≠ j.1 := by
  rw [eraseBlock, OrderedMap.mem_erase, ne_eq, UInt64.toNat_inj]

theorem foldl_eraseBlock (l : List (UInt64 × Span κ β)) (q : BlockQueue κ β) :
    (∀ x, x ∈ (l.foldl (fun q j => if gone j then q.eraseBlock j else q) q).blocks.entries ↔
        x ∈ q.blocks.entries ∧ ∀ j ∈ l, gone j = true → x.1 ≠ j.1) ∧
      (∀ h, (l.foldl (fun q j => if gone j then q.eraseBlock j else q) q).requested h = true ↔
        q.requested h = true ∧ ∀ j ∈ l, gone j = true → h ∉ j.2.hashes) ∧
      ∀ h, (l.foldl (fun q j => if gone j then q.eraseBlock j else q) q).haveHash h = true ↔
        q.haveHash h = true ∧ ∀ j ∈ l, gone j = true → h ∉ j.2.hashes := by
  induction l generalizing q with
  | nil => simp
  | cons j rest ih =>
    rw [List.foldl_cons]
    by_cases hj : gone j = true
    · rw [if_pos hj]
      obtain ⟨hentries, hrequested, hreceived⟩ := ih (q.eraseBlock j)
      refine ⟨fun x => ?_, fun h => ?_, fun h => ?_⟩
      · rw [hentries, mem_eraseBlock, List.forall_mem_cons, and_assoc]
        simp only [hj, true_imp_iff]
      · rw [hrequested, requested_eraseBlock, List.forall_mem_cons, and_comm (a := h ∉ _), and_assoc]
        simp only [hj, true_imp_iff]
      · rw [hreceived, haveHash_eraseBlock, List.forall_mem_cons, and_comm (a := h ∉ _), and_assoc]
        simp only [hj, true_imp_iff]
    · rw [if_neg hj]
      obtain ⟨hentries, hrequested, hreceived⟩ := ih q
      simp only [hentries, hrequested, hreceived, List.forall_mem_cons, hj, false_imp_iff, true_and, implies_true, and_self,
        Bool.false_eq_true]

theorem erases_eraseBlocks (q : BlockQueue κ β) (gone : UInt64 × Span κ β → Bool) :
    Erases q (q.eraseBlocks gone) gone := by
  obtain ⟨hentries, hrequested, hreceived⟩ := @foldl_eraseBlock κ β gone q.blocks.entries q
  refine ⟨fun x => ?_, hrequested, hreceived⟩
  refine (hentries x).trans (and_congr_right fun hx => ⟨fun hall => ?_, fun hkept j hj hgone heq => ?_⟩)
  · exact Bool.eq_false_iff.mpr fun hgone => hall x hx hgone rfl
  · rw [start_inj hx hj heq, hgone] at hkept
    cases hkept

theorem removeSpan_cases (q : BlockQueue κ β) (start : UInt64) :
    ((q.removeSpan start) = (q, none) ∧ ∀ x ∈ q.blocks.entries, x.1 ≠ start) ∨
      ∃ x ∈ q.blocks.entries, x.1 = start ∧ q.removeSpan start = (q.eraseBlock x, some x.2.hashes) := by
  rw [removeSpan]
  cases hfind : q.blocks.entries.find? fun i => decide (i.1 = start) with
  | none => exact .inl ⟨rfl, fun x hx hstart => List.find?_eq_none.mp hfind x hx (decide_eq_true hstart)⟩
  | some i => exact .inr ⟨i, List.mem_of_find?_eq_some hfind, by simpa using List.find?_some hfind, rfl⟩

theorem erases_removeSpan (q : BlockQueue κ β) (start : UInt64) :
    Erases q (q.removeSpan start).1 fun j => decide (j.1 = start) := by
  rcases q.removeSpan_cases start with ⟨hremove, hnone⟩ | ⟨i, hmem, hstart, hremove⟩
  · rw [hremove]
    refine ⟨fun x => ?_, fun h => ?_, fun h => ?_⟩
    · exact ⟨fun hx => ⟨hx, decide_eq_false (hnone x hx)⟩, And.left⟩
    all_goals exact ⟨fun hh => ⟨hh, fun x hx hgone => absurd (of_decide_eq_true hgone) (hnone x hx)⟩, And.left⟩
  · rw [hremove]
    have hall : ∀ h, (h ∉ i.2.hashes) ↔
        ∀ x ∈ q.blocks.entries, decide (x.1 = start) = true → h ∉ x.2.hashes := by
      intro h
      refine ⟨fun hi x hx hgone => ?_, fun hall => hall i hmem (decide_eq_true hstart)⟩
      rwa [start_inj hx hmem ((of_decide_eq_true hgone).trans hstart.symm)]
    refine ⟨fun x => ?_, fun h => ?_, fun h => ?_⟩
    · rw [mem_eraseBlock, hstart, decide_eq_false_iff_not]
    · rw [requested_eraseBlock, hall, and_comm]
    · rw [haveHash_eraseBlock, hall, and_comm]

def Apart (q : BlockQueue κ β) (gone : UInt64 × Span κ β → Bool) : Prop :=
  ∀ x ∈ q.blocks.entries, gone x = true → ∀ y ∈ q.blocks.entries, gone y = false → ∀ h ∈ x.2.hashes, h ∉ y.2.hashes

theorem Indexed.erases_iff (hq : q.Indexed) (h : Erases q q' gone) : q'.Indexed ↔ q.Apart gone := by
  constructor
  · -- a shared hash is listed still, but no longer requested
    intro hq' x hx hgone y hy hkept k hkx hky
    have hrequested := (hq'.requested k).mpr ⟨y, (h.entries y).mpr ⟨hy, hkept⟩, hky⟩
    exact ((h.requested k).mp hrequested).2 x hx hgone hkx
  · intro hapart
    refine ⟨fun k => ?_, fun k => ?_⟩
    · rw [h.requested, hq.requested]
      constructor
      · rintro ⟨⟨x, hx, hkx⟩, hnone⟩
        refine ⟨x, (h.entries x).mpr ⟨hx, ?_⟩, hkx⟩
        exact Bool.eq_false_iff.mpr fun hgone => hnone x hx hgone hkx
      · rintro ⟨y, hy, hky⟩
        obtain ⟨hy, hkept⟩ := (h.entries y).mp hy
        exact ⟨⟨y, hy, hky⟩, fun x hx hgone hkx => hapart x hx hgone y hy hkept k hkx hky⟩
    · rw [h.received, hq.received]
      constructor
      · rintro ⟨⟨x, hx, hfilled, hkx⟩, hnone⟩
        refine ⟨x, (h.entries x).mpr ⟨hx, ?_⟩, hfilled, hkx⟩
        exact Bool.eq_false_iff.mpr fun hgone => hnone x hx hgone hkx
      · rintro ⟨y, hy, hfilled, hky⟩
        obtain ⟨hy, hkept⟩ := (h.entries y).mp hy
        exact ⟨⟨y, hy, hfilled, hky⟩, fun x hx hgone hkx => hapart x hx hgone y hy hkept k hkx hky⟩

theorem mem_insertSpan
    (h : ∀ y ∈ q.blocks.entries, y.1 ≠ start) :
    x ∈ (q.insertSpan start span).blocks.entries ↔ x = (start, span) ∨ x ∈ q.blocks.entries :=
  OrderedMap.mem_emplace (find?_none_iff.mpr h)

theorem insertSpan_found (hx : x ∈ q.blocks.entries)
    (hstart : x.1 = start) : q.insertSpan start span = q := by
  rw [insertSpan, OrderedMap.emplace_found]
  exact fun hnone => find?_none_iff.mp hnone x hx hstart

theorem Indexed.insertSpan (hq : q.Indexed) (start : UInt64) (hnil : span.hashes = []) :
    (q.insertSpan start span).Indexed := by
  by_cases hnew : ∀ y ∈ q.blocks.entries, y.1 ≠ start
  · have hlisted : ∀ p : UInt64 × Span κ β → Prop, ¬p (start, span) →
        ((∃ x ∈ (q.insertSpan start span).blocks.entries, p x) ↔ ∃ x ∈ q.blocks.entries, p x) := by
      intro p hp
      constructor
      · rintro ⟨x, hx, hpx⟩
        rcases (mem_insertSpan hnew).mp hx with rfl | hx
        · exact absurd hpx hp
        · exact ⟨x, hx, hpx⟩
      · rintro ⟨x, hx, hpx⟩
        exact ⟨x, (mem_insertSpan hnew).mpr (.inr hx), hpx⟩
    refine ⟨fun h => (hq.requested h).trans (hlisted _ ?_).symm, fun h => (hq.received h).trans (hlisted _ ?_).symm⟩
    · rw [hnil]
      exact List.not_mem_nil
    · rw [hnil]
      exact fun hmem => List.not_mem_nil hmem.2
  · push Not at hnew
    obtain ⟨y, hy, hstart⟩ := hnew
    rwa [insertSpan_found hy hstart]

structure Relists (q q' : BlockQueue κ β) (x : UInt64 × Span κ β) (hashes : List Hash) : Prop where
  entries : ∀ y, y ∈ q'.blocks.entries ↔ y = (x.1, { x.2 with hashes := hashes }) ∨ y ∈ q.blocks.entries ∧ y.1 ≠ x.1
  requested : ∀ h, q'.requested h = true ↔ h ∈ hashes ∨ h ∉ x.2.hashes ∧ q.requested h = true
  received : ∀ h, q'.haveHash h = true ↔ h ∉ x.2.hashes ∧ q.haveHash h = true

def Replaceable (q : BlockQueue κ β) (x : UInt64 × Span κ β) : Prop :=
  x.2.blocks = [] ∧ ∀ y ∈ q.blocks.entries, y.1 ≠ x.1 → ∀ h ∈ x.2.hashes, h ∉ y.2.hashes

theorem Indexed.relists (hq : q.Indexed) {hashes : List Hash} (hx : x ∈ q.blocks.entries)
    (h : Relists q q' x hashes) (hrepl : q.Replaceable x) : q'.Indexed := by
  obtain ⟨hempty, hown⟩ := hrepl
  refine ⟨fun k => ?_, fun k => ?_⟩
  · rw [h.requested, hq.requested]
    constructor
    · rintro (hk | ⟨hnot, y, hy, hky⟩)
      · exact ⟨_, (h.entries _).mpr (.inl rfl), hk⟩
      · refine ⟨y, (h.entries y).mpr (.inr ⟨hy, fun heq => hnot ?_⟩), hky⟩
        rwa [← start_inj hy hx heq]
    · rintro ⟨y, hy, hky⟩
      rcases (h.entries y).mp hy with rfl | ⟨hy, hne⟩
      · exact .inl hky
      · exact .inr ⟨fun hkx => hown y hy hne k hkx hky, y, hy, hky⟩
  · rw [h.received, hq.received]
    constructor
    · rintro ⟨hnot, y, hy, hfilled, hky⟩
      refine ⟨y, (h.entries y).mpr (.inr ⟨hy, fun heq => hnot ?_⟩), hfilled, hky⟩
      rwa [← start_inj hy hx heq]
    · rintro ⟨y, hy, hfilled, hky⟩
      rcases (h.entries y).mp hy with rfl | ⟨hy, hne⟩
      · exact absurd hempty hfilled
      · exact ⟨fun hkx => hown y hy hne k hkx hky, y, hy, hfilled, hky⟩

variable [DecidableEq κ]

theorem setSpanHashes_cases (q : BlockQueue κ β) (start : UInt64) (connectionId : κ) (hashes : List Hash) :
    (q.setSpanHashes start connectionId hashes = q ∧
        ∀ x ∈ q.blocks.entries, x.1 = start → x.2.connectionId ≠ connectionId) ∨
      ∃ x ∈ q.blocks.entries, x.1 = start ∧ x.2.connectionId = connectionId ∧
        Relists q (q.setSpanHashes start connectionId hashes) x hashes := by
  rw [setSpanHashes]
  cases hfind : q.blocks.entries.find? fun i => i.1 = start && decide (i.2.connectionId = connectionId) with
  | none =>
    refine .inl ⟨rfl, fun x hx hstart hconn => ?_⟩
    have hnot := List.find?_eq_none.mp hfind x hx
    exact hnot (by simp [hstart, hconn])
  | some i =>
    have hmem := List.mem_of_find?_eq_some hfind
    have hfound := List.find?_some hfind
    rw [Bool.and_eq_true, decide_eq_true_eq, decide_eq_true_eq] at hfound
    refine .inr ⟨i, hmem, hfound.1, hfound.2, fun y => ?_, fun h => ?_, fun h => haveHash_eraseBlock i⟩
    · have hnew : ∀ y ∈ (q.eraseBlock i).blocks.entries, y.1 ≠ i.1 := fun y hy => (mem_eraseBlock.mp hy).2
      refine (OrderedMap.mem_emplace ?_).trans (or_congr_right mem_eraseBlock)
      exact find?_none_iff.mpr hnew
    · rw [← requested_eraseBlock, requested_iff, requested_iff]
      exact UnorderedSet.mem_foldl_insert

theorem Indexed.setSpanHashes (hq : q.Indexed) {connectionId : κ} (hashes : List Hash)
    (hrepl : ∀ x ∈ q.blocks.entries, x.1 = start → x.2.connectionId = connectionId → q.Replaceable x) :
    (q.setSpanHashes start connectionId hashes).Indexed := by
  rcases q.setSpanHashes_cases start connectionId hashes with ⟨hsame, -⟩ | ⟨x, hx, hstart, hconn, hrelists⟩
  · rwa [hsame]
  · exact hq.relists hx hrelists (hrepl x hx hstart hconn)

theorem Indexed.addBlocks (hq : q.Indexed) (height : UInt64) (bcel : List β) (connectionId : κ)
    (hfilled : bcel = [] → ∀ x ∈ q.blocks.entries, x.1 ≠ height) : (q.addBlocks height bcel connectionId).Indexed := by
  rw [BlockQueue.addBlocks]
  rcases q.removeSpan_cases height with ⟨hremove, -⟩ | ⟨x, hx, rfl, hremove⟩
  · rw [hremove]
    exact hq.insertSpan height rfl
  rw [hremove]
  dsimp only
  generalize hspan : (⟨[], bcel, connectionId, UInt64.ofNat bcel.length⟩ : Span κ β) = span
  generalize hadded : ({ (q.eraseBlock x).insertSpan x.1 span with
    requestedHashes := _, haveBlocks := _ } : BlockQueue κ β) = added
  have hentries : ∀ y, y ∈ added.blocks.entries ↔ y = (x.1, span) ∨ y ∈ q.blocks.entries ∧ y.1 ≠ x.1 := by
    intro y
    rw [← hadded]
    exact (mem_insertSpan fun y hy => (mem_eraseBlock.mp hy).2).trans (or_congr_right mem_eraseBlock)
  have hrequested : ∀ h, added.requested h = true ↔ h ∈ x.2.hashes ∨ h ∉ x.2.hashes ∧ q.requested h = true := by
    intro h
    rw [← requested_eraseBlock, requested_iff, requested_iff, ← hadded]
    exact UnorderedSet.mem_foldl_insert
  have hreceived : ∀ h, added.haveHash h = true ↔ h ∈ x.2.hashes ∨ h ∉ x.2.hashes ∧ q.haveHash h = true := by
    intro h
    rw [← haveHash_eraseBlock, haveHash_iff, haveHash_iff, ← hadded]
    refine UnorderedMap.mem_keys_foldl_emplace.trans (or_congr_left ?_)
    rw [List.map_map]
    exact iff_of_eq (congrArg (h ∈ ·) (List.zipIdx_map_fst 0 x.2.hashes))
  have hbcel : bcel ≠ [] := fun hnil => hfilled hnil x hx rfl
  rcases added.setSpanHashes_cases x.1 connectionId x.2.hashes with ⟨-, hnone⟩ | ⟨y, hy, hstart, -, hrelists⟩
  · exact absurd (by rw [← hspan]) (hnone (x.1, span) ((hentries _).mpr (.inl rfl)) rfl)
  · obtain rfl : y = (x.1, span) := by
      rcases (hentries y).mp hy with rfl | ⟨-, hne⟩
      · rfl
      · exact absurd hstart hne
    have hnil : span.hashes = [] := by rw [← hspan]
    have hfinal : ∀ y, y ∈ (added.setSpanHashes x.1 connectionId x.2.hashes).blocks.entries ↔
        y = (x.1, { span with hashes := x.2.hashes }) ∨ y ∈ q.blocks.entries ∧ y.1 ≠ x.1 := by
      intro y
      rw [hrelists.entries, hentries]
      refine or_congr_right ⟨?_, fun hy => ⟨.inr hy, hy.2⟩⟩
      rintro ⟨rfl | hy, hne⟩
      · exact absurd rfl hne
      · exact hy
    have hother : ∀ {y h}, y ∈ q.blocks.entries → h ∈ y.2.hashes → h ∉ x.2.hashes → y.1 ≠ x.1 := by
      intro y h hy hhy hnot heq
      exact hnot (start_inj hy hx heq ▸ hhy)
    refine ⟨fun h => ?_, fun h => ?_⟩
    · rw [hrelists.requested, hrequested, hnil, hq.requested]
      constructor
      · intro hh
        by_cases hhx : h ∈ x.2.hashes
        · exact ⟨_, (hfinal _).mpr (.inl rfl), hhx⟩
        · obtain ⟨y, hy, hhy⟩ := ((hh.resolve_left hhx).2.resolve_left hhx).2
          exact ⟨y, (hfinal y).mpr (.inr ⟨hy, hother hy hhy hhx⟩), hhy⟩
      · rintro ⟨y, hy, hhy⟩
        rcases (hfinal y).mp hy with rfl | ⟨hy, -⟩
        · exact .inl hhy
        · by_cases hhx : h ∈ x.2.hashes
          · exact .inl hhx
          · exact .inr ⟨List.not_mem_nil, .inr ⟨hhx, y, hy, hhy⟩⟩
    · rw [hrelists.received, hreceived, hnil, hq.received]
      constructor
      · rintro ⟨-, hh⟩
        by_cases hhx : h ∈ x.2.hashes
        · exact ⟨_, (hfinal _).mpr (.inl rfl), by rw [← hspan]; exact hbcel, hhx⟩
        · obtain ⟨y, hy, hyfilled, hhy⟩ := (hh.resolve_left hhx).2
          exact ⟨y, (hfinal y).mpr (.inr ⟨hy, hother hy hhy hhx⟩), hyfilled, hhy⟩
      · rintro ⟨y, hy, hyfilled, hhy⟩
        refine ⟨List.not_mem_nil, ?_⟩
        rcases (hfinal y).mp hy with rfl | ⟨hy, -⟩
        · exact .inl hhy
        · by_cases hhx : h ∈ x.2.hashes
          · exact .inl hhx
          · exact .inr ⟨hhx, y, hy, hyfilled, hhy⟩

end BlockQueue

end Velkavo.Protocol
