import Mathlib.Logic.Equiv.Basic

/-! Sifting in place, in a binary heap whose root is position 0 and has the single child 1. -/

namespace Sift

variable {α : Type*} {r : α → α → Prop} {key key' : ℕ → α} {ct i j : ℕ}

def Ordered (r : α → α → Prop) (key : ℕ → α) (ct : ℕ) : Prop := ∀ k, 0 < k → k ≤ ct → r (key (k / 2)) (key k)

structure DownAt (r : α → α → Prop) (key : ℕ → α) (ct i : ℕ) : Prop where
  except : ∀ k, 0 < k → k ≤ ct → k / 2 ≠ i → r (key (k / 2)) (key k)
  grand : ∀ k, k ≤ ct → k / 2 = i → 0 < i → r (key (i / 2)) (key k)

structure UpAt (r : α → α → Prop) (key : ℕ → α) (ct i : ℕ) : Prop where
  except : ∀ k, 0 < k → k ≤ ct → k ≠ i → r (key (k / 2)) (key k)
  grand : ∀ k, k ≤ ct → k / 2 = i → 0 < i → r (key (i / 2)) (key k)

section

theorem Ordered.congr (h : Ordered r key ct) (hsame : ∀ k, k ≤ ct → key' k = key k) : Ordered r key' ct := by
  intro k hk hct
  rw [hsame k hct, hsame (k / 2) (by omega)]
  exact h k hk hct

theorem Ordered.of_root (h : Ordered r key ct) (hsame : ∀ k, 0 < k → k ≤ ct → key' k = key k)
    (hroot : 0 < ct → r (key' 0) (key 1)) : Ordered r key' ct := by
  intro k hk hct
  rw [hsame k hk hct]
  obtain rfl | hlt := Nat.eq_or_lt_of_le (show 1 ≤ k from hk)
  · exact hroot hct
  · rw [hsame (k / 2) (by omega) (by omega)]
    exact h k hk hct

theorem Ordered.downAt_root (h : Ordered r key ct) (hsame : ∀ k, 0 < k → k ≤ ct → key' k = key k) :
    DownAt r key' ct 0 := by
  refine ⟨fun k hk hct hne => ?_, fun k _ _ hlt => absurd hlt (Nat.lt_irrefl 0)⟩
  rw [hsame k hk hct, hsame (k / 2) (by omega) (by omega)]
  exact h k hk hct

theorem Ordered.upAt_append (h : Ordered r key ct) (hsame : ∀ k, k ≤ ct → key' k = key k) :
    UpAt r key' (ct + 1) (ct + 1) := by
  refine ⟨fun k hk hct hne => ?_, fun k hct hparent _ => by omega⟩
  rw [hsame k (by omega), hsame (k / 2) (by omega)]
  exact h k hk (by omega)

theorem UpAt.ordered (h : UpAt r key ct i) (hi : 0 < i → r (key (i / 2)) (key i)) : Ordered r key ct := by
  intro k hk hct
  by_cases hki : k = i
  · subst hki
    exact hi hk
  · exact h.except k hk hct hki

theorem DownAt.ordered (h : DownAt r key ct i) (hi : ∀ k, 0 < k → k ≤ ct → k / 2 = i → r (key i) (key k)) :
    Ordered r key ct := by
  intro k hk hct
  by_cases hki : k / 2 = i
  · rw [hki]
    exact hi k hk hct hki
  · exact h.except k hk hct hki

variable [IsTrans α r]

theorem Ordered.downAt_replace (h : Ordered r key ct) (hi : 0 < i) (hict : i ≤ ct)
    (hsame : ∀ k, k ≤ ct → k ≠ i → key' k = key k) (hle : r (key i) (key' i)) : DownAt r key' ct i := by
  have hparent : key' (i / 2) = key (i / 2) := hsame _ (by omega) (by omega)
  constructor
  · intro k hk hct hne
    rw [hsame (k / 2) (by omega) hne]
    by_cases hki : k = i
    · subst hki
      exact trans_of r (h k hk hct) hle
    · rw [hsame k hct hki]
      exact h k hk hct
  · rintro k hct rfl _
    rw [hparent, hsame k hct (by omega)]
    exact trans_of r (h (k / 2) hi hict) (h k (by omega) hct)

theorem Ordered.upAt_replace (h : Ordered r key ct) (hi : 0 < i) (hict : i ≤ ct)
    (hsame : ∀ k, k ≤ ct → k ≠ i → key' k = key k) (hle : r (key' i) (key i)) : UpAt r key' ct i := by
  have hparent : key' (i / 2) = key (i / 2) := hsame _ (by omega) (by omega)
  constructor
  · intro k hk hct hne
    rw [hsame k hct hne]
    by_cases hki : k / 2 = i
    · subst hki
      exact trans_of r hle (h k hk hct)
    · rw [hsame (k / 2) (by omega) hki]
      exact h k hk hct
  · rintro k hct rfl _
    rw [hparent, hsame k hct (by omega)]
    exact trans_of r (h (k / 2) hi hict) (h k (by omega) hct)

theorem Ordered.first_le [Std.Refl r] (h : Ordered r key ct) {k : ℕ} (hk : 0 < k) (hct : k ≤ ct) :
    r (key 1) (key k) := by
  induction k using Nat.strongRecOn with
  | ind k ih =>
    obtain rfl | hlt := Nat.eq_or_lt_of_le (show 1 ≤ k from hk)
    · exact refl_of r _
    · exact trans_of r (ih (k / 2) (by omega) (by omega) (by omega)) (h k hk hct)

theorem Ordered.root_le [Std.Refl r] (h : Ordered r key ct) {k : ℕ} (hk : 0 < k) (hct : k ≤ ct) :
    r (key 0) (key k) :=
  trans_of r (h 1 Nat.one_pos (by omega)) (h.first_le hk hct)

omit [IsTrans α r] in
theorem DownAt.swap (h : DownAt r key ct i) (hj : 0 < j) (hjct : j ≤ ct) (hchild : j / 2 = i)
    (hmin : ∀ k, 0 < k → k ≤ ct → k / 2 = i → r (key j) (key k)) (hlt : r (key j) (key i)) :
    DownAt r (key ∘ Equiv.swap j i) ct j := by
  have hat : (key ∘ Equiv.swap j i) i = key j := congrArg key (Equiv.swap_apply_right j i)
  have hto : (key ∘ Equiv.swap j i) j = key i := congrArg key (Equiv.swap_apply_left j i)
  have hoff : ∀ k, k ≠ i → k ≠ j → (key ∘ Equiv.swap j i) k = key k := fun k hki hkj =>
    congrArg key (Equiv.swap_apply_of_ne_of_ne hkj hki)
  constructor
  · intro k hk hct hne
    by_cases hki : k = i
    · subst hki
      rw [hat, hoff (k / 2) (by omega) (by omega)]
      exact h.grand j hjct hchild hk
    · by_cases hkj : k = j
      · subst hkj
        rw [hchild, hat, hto]
        exact hlt
      · rw [hoff k hki hkj]
        by_cases hp : k / 2 = i
        · rw [hp, hat]
          exact hmin k hk hct hp
        · rw [hoff (k / 2) hp hne]
          exact h.except k hk hct hp
  · rintro k hct hkj _
    rw [hchild, hat, hoff k (by omega) (by omega), ← hkj]
    exact h.except k (by omega) hct (by omega)

theorem UpAt.swap (h : UpAt r key ct i) (hi : 0 < i) (hict : i ≤ ct) (hlt : r (key i) (key (i / 2))) :
    UpAt r (key ∘ Equiv.swap i (i / 2)) ct (i / 2) := by
  obtain ⟨p, hp⟩ : ∃ p, p = i / 2 := ⟨_, rfl⟩
  rw [← hp] at hlt ⊢
  have hat : (key ∘ Equiv.swap i p) i = key p := congrArg key (Equiv.swap_apply_left i p)
  have hto : (key ∘ Equiv.swap i p) p = key i := congrArg key (Equiv.swap_apply_right i p)
  have hoff : ∀ k, k ≠ i → k ≠ p → (key ∘ Equiv.swap i p) k = key k := fun k hki hkp =>
    congrArg key (Equiv.swap_apply_of_ne_of_ne hki hkp)
  constructor
  · intro k hk hct hne
    by_cases hki : k = i
    · subst hki
      rw [← hp, hat, hto]
      exact hlt
    · rw [hoff k hki hne]
      by_cases hpi : k / 2 = i
      · rw [hpi, hat, hp]
        exact h.grand k hct hpi hi
      · by_cases hpp : k / 2 = p
        · rw [hpp, hto]
          have hsibling := h.except k hk hct hki
          rw [hpp] at hsibling
          exact trans_of r hlt hsibling
        · rw [hoff (k / 2) hpi hpp]
          exact h.except k hk hct hki
  · intro k hct hkp hpos
    rw [hoff (p / 2) (by omega) (by omega)]
    have hup : r (key (p / 2)) (key p) := h.except p hpos (by omega) (by omega)
    by_cases hki : k = i
    · subst hki
      rw [hat]
      exact hup
    · rw [hoff k hki (by omega)]
      have hsibling := h.except k (by omega) hct hki
      rw [hkp] at hsibling
      exact trans_of r hup hsibling

end

structure Board (S : Type*) where
  less : S → ℕ → ℕ → Bool
  exchange : ℕ → ℕ → S → S

namespace Board

variable {S : Type*} (b : Board S)

def cmpExch (i j : ℕ) (s : S) : S × Bool := if b.less s i j then (b.exchange i j s, true) else (s, false)

def child (ct i : ℕ) (s : S) : ℕ := if 2 * i < ct && b.less s (2 * i + 1) (2 * i) then 2 * i + 1 else 2 * i

def sortDown (ct : ℕ) : ℕ → ℕ → S → S
  | 0, _, s => s
  | fuel + 1, i, s =>
    if 2 * i ≤ ct then
      let j := b.child ct i s
      let (s, exchanged) := b.cmpExch j (j / 2) s
      if exchanged then sortDown ct fuel j s else s
    else s

def sortUp : ℕ → ℕ → S → S × Bool
  | 0, i, s => (s, i == 0)
  | fuel + 1, i, s =>
    if i > 0 then
      let (s, exchanged) := b.cmpExch i (i / 2) s
      if exchanged then sortUp fuel (i / 2) s else (s, i == 0)
    else (s, i == 0)

def settle (ct : ℕ) (s : S) : S :=
  if ct = 0 then s
  else
    let (s, exchanged) := b.cmpExch 1 0 s
    if exchanged then b.sortDown ct ct 1 s else s

def raise (b' : Board S) (ct' i : ℕ) (s : S) : S :=
  let (s, changed) := b.sortUp i i s
  if changed then b'.settle ct' s else s

variable {b} {s : S} {fuel : ℕ}

theorem cmpExch_of_less (h : b.less s i j = true) : b.cmpExch i j s = (b.exchange i j s, true) := if_pos h

theorem cmpExch_of_not_less (h : b.less s i j = false) : b.cmpExch i j s = (s, false) := by
  rw [cmpExch, h]
  rfl

theorem child_cases (ct i : ℕ) (s : S) :
    (b.child ct i s = 2 * i + 1 ∧ 2 * i < ct ∧ b.less s (2 * i + 1) (2 * i) = true) ∨
      (b.child ct i s = 2 * i ∧ (2 * i < ct → b.less s (2 * i + 1) (2 * i) = false)) := by
  rw [child]
  split_ifs with h
  · rw [Bool.and_eq_true, decide_eq_true_eq] at h
    exact .inl ⟨rfl, h⟩
  · refine .inr ⟨rfl, fun hlt => ?_⟩
    rw [Bool.and_eq_true, decide_eq_true_eq] at h
    exact Bool.eq_false_iff.mpr fun hless => h ⟨hlt, hless⟩

theorem child_bounds (h : 2 * i ≤ ct) : b.child ct i s / 2 = i ∧ 2 * i ≤ b.child ct i s ∧ b.child ct i s ≤ ct := by
  obtain ⟨hchild, hlt, -⟩ | ⟨hchild, -⟩ := child_cases (b := b) ct i s
  all_goals rw [hchild]; omega

theorem sortDown_stop (h : ¬ 2 * i ≤ ct) : b.sortDown ct fuel i s = s := by
  cases fuel with
  | zero => rfl
  | succ fuel => rw [sortDown, if_neg h]

theorem sortDown_succ (h : 2 * i ≤ ct) :
    b.sortDown ct (fuel + 1) i s =
      if b.less s (b.child ct i s) i then b.sortDown ct fuel (b.child ct i s) (b.exchange (b.child ct i s) i s) else s := by
  rw [sortDown, if_pos h]
  have hhalf := (child_bounds (b := b) (s := s) h).1
  simp only [hhalf]
  cases hless : b.less s (b.child ct i s) i with
  | true => rw [cmpExch_of_less hless]; rfl
  | false => rw [cmpExch_of_not_less hless]; rfl

theorem sortUp_zero : b.sortUp fuel 0 s = (s, true) := by
  cases fuel with
  | zero => rfl
  | succ fuel => rfl

theorem sortUp_succ (h : 0 < i) :
    b.sortUp (fuel + 1) i s =
      if b.less s i (i / 2) then b.sortUp fuel (i / 2) (b.exchange i (i / 2) s) else (s, false) := by
  rw [sortUp, if_pos h]
  cases hless : b.less s i (i / 2) with
  | true => rw [cmpExch_of_less hless]; rfl
  | false =>
    rw [cmpExch_of_not_less hless]
    simp only [Bool.false_eq_true, if_false, Prod.mk.injEq, beq_eq_false_iff_ne, true_and]
    omega

variable {P : S → Prop}

theorem sortDown_keeps (hi : 0 < i)
    (hstep : ∀ t j, 1 < j → j ≤ ct → P t → P (b.exchange j (j / 2) t)) (h : P s) : P (b.sortDown ct fuel i s) := by
  induction fuel generalizing i s with
  | zero => exact h
  | succ fuel ih =>
    by_cases hct : 2 * i ≤ ct
    · obtain ⟨hhalf, hlow, hhigh⟩ := child_bounds (b := b) (s := s) hct
      have hkept := hstep s _ (by omega) hhigh h
      rw [hhalf] at hkept
      rw [sortDown_succ hct]
      split_ifs
      · exact ih (by omega) hkept
      · exact h
    · rw [sortDown_stop hct]
      exact h

theorem sortUp_keeps (hstep : ∀ t j, 0 < j → j ≤ i → P t → P (b.exchange j (j / 2) t)) (h : P s) :
    P (b.sortUp fuel i s).1 := by
  induction fuel generalizing i s with
  | zero => exact h
  | succ fuel ih =>
    obtain rfl | hi := Nat.eq_zero_or_pos i
    · rw [sortUp_zero]
      exact h
    · rw [sortUp_succ hi]
      split_ifs
      · exact ih (fun t j hj hji => hstep t j hj (by omega)) (hstep s i hi (Nat.le_refl i) h)
      · exact h

theorem settle_of_less (hct : ct ≠ 0) (h : b.less s 1 0 = true) :
    b.settle ct s = b.sortDown ct ct 1 (b.exchange 1 0 s) := by
  rw [settle, if_neg hct, cmpExch_of_less h]
  rfl

theorem settle_of_not_less (h : b.less s 1 0 = false) : b.settle ct s = s := by
  rw [settle, cmpExch_of_not_less h]
  exact ite_self s

theorem settle_keeps (hstep : ∀ t j, 0 < j → j ≤ ct → P t → P (b.exchange j (j / 2) t)) (h : P s) :
    P (b.settle ct s) := by
  by_cases hct : ct = 0
  · rw [settle, if_pos hct]
    exact h
  · cases hless : b.less s 1 0 with
    | true =>
      rw [settle_of_less hct hless]
      exact sortDown_keeps Nat.one_pos (fun t j hj => hstep t j (by omega)) (hstep s 1 Nat.one_pos (by omega) h)
    | false =>
      rw [settle_of_not_less hless]
      exact h

theorem raise_keeps {b' : Board S} {ct' : ℕ}
    (hup : ∀ t j, 0 < j → j ≤ i → P t → P (b.exchange j (j / 2) t))
    (hdown : ∀ t j, 0 < j → j ≤ ct' → P t → P (b'.exchange j (j / 2) t)) (h : P s) : P (b.raise b' ct' i s) := by
  have hsorted : P (b.sortUp i i s).1 := sortUp_keeps hup h
  rw [raise]
  generalize b.sortUp i i s = up at hsorted ⊢
  obtain ⟨t, changed⟩ := up
  cases changed with
  | true => exact settle_keeps hdown hsorted
  | false => exact hsorted

structure Keyed (b : Board S) (r : α → α → Prop) (key : S → ℕ → α) : Prop where
  less_iff : ∀ s i j, b.less s i j = true ↔ ¬ r (key s j) (key s i)
  key_exchange : ∀ i j s, key (b.exchange i j s) = key s ∘ Equiv.swap i j

namespace Keyed

variable {key : S → ℕ → α} [Std.Total r]

theorem of_less (hb : b.Keyed r key) (h : b.less s i j = true) : r (key s i) (key s j) :=
  (total_of r _ _).resolve_right ((hb.less_iff s i j).mp h)

omit [Std.Total r] in
theorem of_not_less (hb : b.Keyed r key) (h : b.less s i j = false) : r (key s j) (key s i) := by
  by_contra hr
  rw [(hb.less_iff s i j).mpr hr] at h
  exact Bool.noConfusion h

theorem child_le (hb : b.Keyed r key) {k : ℕ} (hk : k ≤ ct) (hparent : k / 2 = i) :
    r (key s (b.child ct i s)) (key s k) := by
  have hrefl : ∀ a, r a a := fun a => (total_of r a a).elim id id
  have htwo : k = 2 * i ∨ k = 2 * i + 1 := by omega
  obtain ⟨hchild, -, hless⟩ | ⟨hchild, hless⟩ := child_cases (b := b) ct i s
  · rw [hchild]
    rcases htwo with rfl | rfl
    · exact hb.of_less hless
    · exact hrefl _
  · rw [hchild]
    rcases htwo with rfl | rfl
    · exact hrefl _
    · exact hb.of_not_less (hless (by omega))

theorem sortDown_ordered (hb : b.Keyed r key) (hi : 0 < i) (hfuel : ct < i + fuel) (h : DownAt r (key s) ct i)
    [IsTrans α r] : Ordered r (key (b.sortDown ct fuel i s)) ct := by
  induction fuel generalizing i s with
  | zero => exact h.ordered fun k hk hct hparent => by omega
  | succ fuel ih =>
    by_cases hct : 2 * i ≤ ct
    · obtain ⟨hhalf, hlow, hhigh⟩ := child_bounds (b := b) (s := s) hct
      rw [sortDown_succ hct]
      cases hless : b.less s (b.child ct i s) i with
      | true =>
        refine ih (by omega) (by omega) ?_
        rw [hb.key_exchange]
        exact h.swap (by omega) hhigh hhalf (fun k _ hk hparent => hb.child_le hk hparent) (hb.of_less hless)
      | false =>
        refine h.ordered fun k _ hk hparent => ?_
        exact trans_of r (hb.of_not_less hless) (hb.child_le hk hparent)
    · rw [sortDown_stop hct]
      exact h.ordered fun k hk hle hparent => by omega

theorem sortUp_ordered (hb : b.Keyed r key) (hfuel : i ≤ fuel) (hict : i ≤ ct) (h : UpAt r (key s) ct i)
    [IsTrans α r] : Ordered r (key (b.sortUp fuel i s).1) ct := by
  induction fuel generalizing i s with
  | zero => exact h.ordered fun hi => by omega
  | succ fuel ih =>
    obtain rfl | hi := Nat.eq_zero_or_pos i
    · rw [sortUp_zero]
      exact h.ordered fun hi => absurd hi (Nat.lt_irrefl 0)
    · rw [sortUp_succ hi]
      cases hless : b.less s i (i / 2) with
      | true =>
        refine ih (by omega) (by omega) ?_
        rw [hb.key_exchange]
        exact h.swap hi hict (hb.of_less hless)
      | false => exact h.ordered fun _ => hb.of_not_less hless

omit [Std.Total r] in
theorem sortUp_root (hb : b.Keyed r key) (hfuel : i ≤ fuel) (hi : 0 < i) :
    ((b.sortUp fuel i s).2 = false ∧ key (b.sortUp fuel i s).1 0 = key s 0) ∨
      ((b.sortUp fuel i s).2 = true ∧ key (b.sortUp fuel i s).1 1 = key s 0) := by
  induction fuel generalizing i s with
  | zero => omega
  | succ fuel ih =>
    rw [sortUp_succ hi]
    cases hless : b.less s i (i / 2) with
    | false => exact .inl ⟨rfl, rfl⟩
    | true =>
      obtain rfl | hlt := Nat.eq_or_lt_of_le (show 1 ≤ i from hi)
      · refine .inr ?_
        rw [if_pos rfl, sortUp_zero]
        refine ⟨rfl, ?_⟩
        rw [hb.key_exchange]
        exact congrArg (key s) (Equiv.swap_apply_left 1 0)
      · have hroot : key (b.exchange i (i / 2) s) 0 = key s 0 := by
          rw [hb.key_exchange]
          exact congrArg (key s) (Equiv.swap_apply_of_ne_of_ne (by omega) (by omega))
        rw [if_pos rfl, ← hroot]
        exact ih (by omega) (by omega)

theorem settle_ordered (hb : b.Keyed r key) (h : DownAt r (key s) ct 0) [IsTrans α r] :
    Ordered r (key (b.settle ct s)) ct ∧
      ((b.settle ct s = s ∧ (0 < ct → r (key s 0) (key s 1))) ∨
        (0 < ct ∧ ¬ r (key s 0) (key s 1) ∧ key (b.settle ct s) 0 = key s 1)) := by
  by_cases hct : ct = 0
  · rw [settle, if_pos hct]
    exact ⟨fun k hk hle => by omega, .inl ⟨rfl, fun hlt => by omega⟩⟩
  cases hless : b.less s 1 0 with
  | false =>
    have hroot := hb.of_not_less hless
    rw [settle_of_not_less hless]
    refine ⟨h.ordered fun k hk _ hparent => ?_, .inl ⟨rfl, fun _ => hroot⟩⟩
    obtain rfl : k = 1 := by omega
    exact hroot
  | true =>
    have hswap : DownAt r (key (b.exchange 1 0 s)) ct 1 := by
      rw [hb.key_exchange]
      refine h.swap Nat.one_pos (by omega) rfl (fun k hk _ hparent => ?_) (hb.of_less hless)
      obtain rfl : k = 1 := by omega
      exact (total_of r _ _).elim id id
    rw [settle_of_less hct hless]
    refine ⟨hb.sortDown_ordered Nat.one_pos (by omega) hswap, .inr ⟨by omega, (hb.less_iff s 1 0).mp hless, ?_⟩⟩
    -- the sift below position 1 does not touch the root
    refine sortDown_keeps (P := fun t => key t 0 = key s 1) Nat.one_pos (fun t j hj _ ht => ?_) ?_
    · rw [hb.key_exchange, ← ht]
      exact congrArg (key t) (Equiv.swap_apply_of_ne_of_ne (by omega) (by omega))
    · rw [hb.key_exchange]
      exact congrArg (key s) (Equiv.swap_apply_right 1 0)

end Keyed

structure Facing (b b' : Board S) (r r' : α → α → Prop) (key key' : S → ℕ → α) : Prop where
  keyed : b.Keyed r key
  keyed' : b'.Keyed r' key'
  opposite : ∀ x y, r' x y ↔ r y x
  root : ∀ s, key' s 0 = key s 0
  apart : ∀ s i j k, 0 < k → key' (b.exchange i j s) k = key' s k
  apart' : ∀ s i j k, 0 < k → key (b'.exchange i j s) k = key s k

namespace Facing

variable {b' : Board S} {r' : α → α → Prop} {key key' : S → ℕ → α} {ct' : ℕ} [Std.Total r] [Std.Total r']
  [IsTrans α r] [IsTrans α r']

omit [Std.Total r] [Std.Total r'] [IsTrans α r] [IsTrans α r'] in
theorem symm (hf : Facing b b' r r' key key') : Facing b' b r' r key' key where
  keyed := hf.keyed'
  keyed' := hf.keyed
  opposite x y := (hf.opposite y x).symm
  root s := (hf.root s).symm
  apart := hf.apart'
  apart' := hf.apart

omit [Std.Total r] [Std.Total r'] [IsTrans α r] [IsTrans α r'] in
theorem settle_apart (hf : Facing b b' r r' key key') {k : ℕ} (hk : 0 < k) : key (b'.settle ct' s) k = key s k :=
  settle_keeps (P := fun t => key t k = key s k) (fun t j _ _ ht => (hf.apart' t j (j / 2) k hk).trans ht) rfl

omit [Std.Total r] [Std.Total r'] [IsTrans α r] [IsTrans α r'] in
theorem sortUp_apart (hf : Facing b b' r r' key key') {k : ℕ} (hk : 0 < k) :
    key' (b.sortUp fuel i s).1 k = key' s k :=
  sortUp_keeps (P := fun t => key' t k = key' s k) (fun t j _ _ ht => (hf.apart t j (j / 2) k hk).trans ht) rfl

theorem raise_ordered (hf : Facing b b' r r' key key') (hi : 0 < i) (hict : i ≤ ct) (h : UpAt r (key s) ct i)
    (h' : Ordered r' (key' s) ct') :
    Ordered r (key (b.raise b' ct' i s)) ct ∧ Ordered r' (key' (b.raise b' ct' i s)) ct' := by
  have hord := hf.keyed.sortUp_ordered (Nat.le_refl i) hict h
  have hsame : ∀ k, 0 < k → k ≤ ct' → key' (b.sortUp i i s).1 k = key' s k := fun k hk _ => hf.sortUp_apart hk
  rw [raise]
  obtain ⟨hflag, hroot⟩ | ⟨hflag, hfirst⟩ := hf.keyed.sortUp_root (s := s) (Nat.le_refl i) hi
  · simp only [hflag, Bool.false_eq_true, if_false]
    refine ⟨hord, h'.congr fun k hk => ?_⟩
    obtain rfl | hpos := Nat.eq_zero_or_pos k
    · rw [hf.root, hf.root, hroot]
    · exact hsame k hpos hk
  · simp only [hflag, if_true]
    obtain ⟨hord', ⟨hstay, -⟩ | ⟨hct', -, htop⟩⟩ := hf.keyed'.settle_ordered (h'.downAt_root hsame)
    · rw [hstay] at hord' ⊢
      exact ⟨hord, hord'⟩
    · refine ⟨hord.of_root (fun k hk _ => hf.settle_apart hk) fun _ => ?_, hord'⟩
      -- the new root comes from the other side, so it is before the old root, which is at position 1 now
      rw [← hf.root, htop, hsame 1 Nat.one_pos hct', hfirst, ← hf.root]
      exact (hf.opposite _ _).mp (h' 1 Nat.one_pos hct')

theorem settle_settle_ordered (hf : Facing b b' r r' key key') {base : S} (h : Ordered r (key base) ct)
    (h' : Ordered r' (key' base) ct') (hsame : ∀ k, 0 < k → k ≤ ct → key s k = key base k)
    (hsame' : ∀ k, 0 < k → k ≤ ct' → key' s k = key' base k) :
    Ordered r (key (b.settle ct (b'.settle ct' s))) ct ∧ Ordered r' (key' (b.settle ct (b'.settle ct' s))) ct' := by
  have hmid : ∀ k, 0 < k → k ≤ ct → key (b'.settle ct' s) k = key base k := fun k hk hct =>
    (hf.settle_apart hk).trans (hsame k hk hct)
  have hacross : 0 < ct → 0 < ct' → r (key' base 1) (key base 1) := by
    intro hct hct'
    have hleft := (hf.opposite _ _).mp (h' 1 Nat.one_pos hct')
    rw [hf.root] at hleft
    exact trans_of r hleft (h 1 Nat.one_pos hct)
  obtain ⟨hord', hcase'⟩ := hf.keyed'.settle_ordered (h'.downAt_root hsame')
  obtain ⟨hord, hcase⟩ := hf.keyed.settle_ordered (h.downAt_root hmid)
  refine ⟨hord, ?_⟩
  rcases hcase with ⟨hstay, -⟩ | ⟨hct, hlate, htop⟩
  · rw [hstay]
    exact hord'
  · refine hord'.of_root (fun k hk _ => hf.symm.settle_apart hk) fun hct' => ?_
    rcases hcase' with ⟨hstay', -⟩ | ⟨-, -, htop'⟩
    · rw [hf.root, htop, hmid 1 Nat.one_pos hct, hstay', hsame' 1 Nat.one_pos hct']
      exact (hf.opposite _ _).mpr (hacross hct hct')
    · -- the root has come from the other side, and nothing here is before it
      refine absurd ?_ hlate
      rw [← hf.root, htop', hsame' 1 Nat.one_pos hct', hmid 1 Nat.one_pos hct]
      exact hacross hct hct'

end Facing

end Board

end Sift
