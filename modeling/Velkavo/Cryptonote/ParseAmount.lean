import Velkavo.Cryptonote.Money

namespace Velkavo.Cryptonote

open ByteCodec StringTools

structure Numeral where
  whole : Bytes
  fraction : Option Bytes
  whole_digits : ∀ c ∈ whole, isDigit c = true
  fraction_digits : ∀ c ∈ fraction.getD [], isDigit c = true

namespace Numeral

def decimals (n : Numeral) : Bytes := n.fraction.getD []

def text (n : Numeral) : Bytes := n.whole ++ n.fraction.elim [] (dot :: ·)

def Written (n : Numeral) (s : Bytes) : Prop :=
  ∃ left right, (∀ c ∈ left, isSpace c = true) ∧ (∀ c ∈ right, isSpace c = true) ∧ s = left ++ n.text ++ right

def Exact (n : Numeral) (decimalPoint : ℕ) : Prop := ∀ c ∈ n.decimals.drop decimalPoint, c = zeroDigit

def Scaled (n : Numeral) (decimalPoint value : ℕ) : Prop :=
  value * 10 ^ n.decimals.length = decimalValue (n.whole ++ n.decimals) * 10 ^ decimalPoint

def Kept (n : Numeral) (decimalPoint : ℕ) : Prop := n.whole ++ n.decimals.take decimalPoint ≠ []

def value (n : Numeral) (decimalPoint : ℕ) : ℕ :=
  decimalValue (n.whole ++ n.decimals.take decimalPoint) * 10 ^ (decimalPoint - n.decimals.length)

variable {n : Numeral} {decimalPoint : ℕ}

theorem Exact.decimals_eq (h : n.Exact decimalPoint) :
    n.decimals = n.decimals.take decimalPoint ++ List.replicate (n.decimals.length - decimalPoint) zeroDigit := by
  have hzeros := List.eq_replicate_of_mem h
  rw [List.length_drop] at hzeros
  rw [← hzeros, List.take_append_drop]

end Numeral

theorem decimalValue_append_zeros (s : Bytes) (k : ℕ) :
    decimalValue (s ++ List.replicate k zeroDigit) = decimalValue s * 10 ^ k := by
  rw [decimalValue_append, List.length_replicate, ← List.append_nil (List.replicate k zeroDigit), decimalValue_replicate]
  rfl

theorem Numeral.Exact.scaled_iff {n : Numeral} {decimalPoint : ℕ} (h : n.Exact decimalPoint) (v : ℕ) :
    n.Scaled decimalPoint v ↔ v = n.value decimalPoint := by
  have hvalue : decimalValue (n.whole ++ n.decimals) =
      decimalValue (n.whole ++ n.decimals.take decimalPoint) * 10 ^ (n.decimals.length - decimalPoint) := by
    conv_lhs => rw [h.decimals_eq, ← List.append_assoc, decimalValue_append_zeros]
  have hpowers : 10 ^ (n.decimals.length - decimalPoint) * 10 ^ decimalPoint =
      10 ^ (decimalPoint - n.decimals.length) * 10 ^ n.decimals.length := by
    rw [← pow_add, ← pow_add]
    congr 1
    omega
  rw [Numeral.Scaled, Numeral.value, hvalue, Nat.mul_assoc, hpowers, ← Nat.mul_assoc]
  exact Nat.mul_left_inj (by positivity)

section

theorem dropWhile_append_blanks {left s : Bytes} (hleft : ∀ c ∈ left, isSpace c = true) (hne : s ≠ [])
    (hs : ∀ c ∈ s, isSpace c = false) (right : Bytes) : (left ++ (s ++ right)).dropWhile isSpace = s ++ right := by
  obtain ⟨c, s, rfl⟩ := List.exists_cons_of_ne_nil hne
  rw [List.dropWhile_append_of_pos hleft, List.cons_append, List.dropWhile_cons_of_neg]
  simp [hs c (by simp)]

theorem trim_append_blanks {left s right : Bytes} (hleft : ∀ c ∈ left, isSpace c = true) (hne : s ≠ [])
    (hs : ∀ c ∈ s, isSpace c = false) (hright : ∀ c ∈ right, isSpace c = true) : trim (left ++ s ++ right) = s := by
  rw [trim, List.append_assoc, dropWhile_append_blanks hleft hne hs, List.reverse_append,
    ← List.append_nil s.reverse, dropWhile_append_blanks (fun c hc => hright c (List.mem_reverse.mp hc))
      (by simpa using hne) fun c hc => hs c (List.mem_reverse.mp hc)]
  simp

theorem exists_blanks (s : Bytes) :
    ∃ left right, (∀ c ∈ left, isSpace c = true) ∧ (∀ c ∈ right, isSpace c = true) ∧ s = left ++ trim s ++ right := by
  refine ⟨s.takeWhile isSpace, (((s.dropWhile isSpace).reverse).takeWhile isSpace).reverse,
    fun c hc => List.mem_takeWhile_imp hc, fun c hc => List.mem_takeWhile_imp (List.mem_reverse.mp hc), ?_⟩
  rw [trim, List.append_assoc, ← List.reverse_append, List.takeWhile_append_dropWhile, List.reverse_reverse,
    List.takeWhile_append_dropWhile]

end

theorem eraseZeros_eq_some_iff {k : ℕ} {s f : Bytes} :
    eraseZeros k s = some f ↔ s = List.replicate k zeroDigit ++ f := by
  induction k generalizing s with
  | zero => simp [eraseZeros]
  | succ k ih =>
    cases s with
    | nil => simp [eraseZeros, List.replicate_succ]
    | cons c s =>
      rw [eraseZeros, List.replicate_succ, List.cons_append, List.cons.injEq]
      split_ifs with hc
      · rw [ih]
        simp [hc]
      · simp [hc]

theorem getXtypeFromString_digits {d : Bytes} (hne : d ≠ []) (hd : ∀ c ∈ d, isDigit c = true) (k : ℕ) :
    (getXtypeFromString 64 (d ++ List.replicate k zeroDigit)).map UInt64.ofNat =
      if decimalValue d * 10 ^ k < 2 ^ 64 then some (UInt64.ofNat (decimalValue d * 10 ^ k)) else none := by
  have hall : (d ++ List.replicate k zeroDigit).all isDigit = true := by
    refine List.all_eq_true.mpr fun c hc => ?_
    rcases List.mem_append.mp hc with hc | hc
    · exact hd c hc
    · rw [(List.mem_replicate.mp hc).2]
      rfl
  have hne' : d ++ List.replicate k zeroDigit ≠ [] := by simp [hne]
  rw [getXtypeFromString, decimalValue_append_zeros]
  simp only [hne', hall, ne_eq, not_false_eq_true, true_and]
  split_ifs <;> rfl

theorem dropWhile_digits {s : Bytes} (h : ∀ c ∈ s, isDigit c = true) : s.dropWhile (· ≠ dot) = [] := by
  refine List.dropWhile_eq_nil_iff.mpr fun c hc => decide_eq_true ?_
  rintro rfl
  exact absurd (h _ hc) (by decide)

section

variable {n : Numeral} {s : Bytes} {decimalPoint : ℕ} {v : UInt64}

theorem Numeral.isSpace_of_mem_text {c : UInt8} (hc : c ∈ n.text) : isSpace c = false := by
  rcases List.mem_append.mp hc with hc | hc
  · exact isSpace_of_isDigit (n.whole_digits c hc)
  · cases hf : n.fraction with
    | none => simp [hf] at hc
    | some f =>
      rw [hf, Option.elim_some, List.mem_cons] at hc
      rcases hc with rfl | hc
      · rfl
      · exact isSpace_of_isDigit (n.fraction_digits c (by rwa [hf]))

theorem Numeral.Written.trim_eq (h : n.Written s) (hkept : n.Kept decimalPoint) : trim s = n.text := by
  obtain ⟨left, right, hleft, hright, rfl⟩ := h
  refine trim_append_blanks hleft ?_ (fun c hc => n.isSpace_of_mem_text hc) hright
  intro hnil
  obtain ⟨hwhole, hfraction⟩ := List.append_eq_nil_iff.mp hnil
  cases hf : n.fraction with
  | none => exact hkept (by simp [hwhole, Numeral.decimals, hf])
  | some f => simp [hf] at hfraction

theorem Numeral.Written.parseAmount (h : n.Written s) (hexact : n.Exact decimalPoint) (hkept : n.Kept decimalPoint) :
    parseAmount decimalPoint s =
      if n.value decimalPoint < 2 ^ 64 then some (UInt64.ofNat (n.value decimalPoint)) else none := by
  have hdigits : ∀ c ∈ n.whole ++ n.decimals.take decimalPoint, isDigit c = true := by
    intro c hc
    rcases List.mem_append.mp hc with hc | hc
    · exact n.whole_digits c hc
    · exact n.fraction_digits c (List.mem_of_mem_take hc)
  have hread := getXtypeFromString_digits hkept hdigits (decimalPoint - n.decimals.length)
  rw [Cryptonote.parseAmount, h.trim_eq hkept, Numeral.text, Numeral.value, ← hread]
  rw [Numeral.Kept] at hkept
  cases hf : n.fraction with
  | none =>
    have hdecimals : n.decimals = [] := by rw [Numeral.decimals, hf]; rfl
    rw [hdecimals, List.take_nil, List.append_nil] at hkept ⊢
    rw [Option.elim_none, List.append_nil, dropWhile_digits n.whole_digits]
    exact if_neg hkept
  | some f =>
    have hdecimals : n.decimals = f := by rw [Numeral.decimals, hf]; rfl
    rw [hdecimals] at hkept ⊢
    obtain ⟨htake, hdrop⟩ := takeWhile_dropWhile_dot n.whole_digits f
    have herase : eraseZeros (f.length - decimalPoint) f.reverse = some (f.take decimalPoint).reverse := by
      have hsplit := hexact.decimals_eq
      rw [hdecimals] at hsplit
      rw [eraseZeros_eq_some_iff]
      conv_lhs => rw [hsplit, List.reverse_append, List.reverse_replicate]
    have hlength : decimalPoint - min decimalPoint f.length = decimalPoint - f.length := by omega
    rw [Option.elim_some, htake, hdrop]
    simp only [herase, Option.map_some, List.reverse_reverse, List.length_reverse, List.length_take, hlength]
    exact if_neg hkept

theorem isDigit_of_getXtypeFromString {d : Bytes} (h : (getXtypeFromString 64 d).map UInt64.ofNat = some v) :
    ∀ c ∈ d, isDigit c = true := by
  rw [getXtypeFromString] at h
  split_ifs at h with hd
  · exact List.all_eq_true.mp hd.2.1
  · cases h

theorem exists_numeral (h : parseAmount decimalPoint s = some v) :
    ∃ n : Numeral, n.Written s ∧ n.Exact decimalPoint ∧ n.Kept decimalPoint := by
  obtain ⟨left, right, hleft, hright, hs⟩ := exists_blanks s
  rw [parseAmount] at h
  generalize trim s = t at h hs
  cases hdrop : t.dropWhile (· ≠ dot) with
  | nil =>
    simp only [hdrop] at h
    split_ifs at h with hnil
    have hdigits : ∀ c ∈ t, isDigit c = true := fun c hc =>
      isDigit_of_getXtypeFromString h c (List.mem_append_left _ hc)
    refine ⟨⟨t, none, hdigits, by simp⟩, ⟨left, right, hleft, hright, ?_⟩, ?_, ?_⟩
    · rw [hs, Numeral.text, Option.elim_none, List.append_nil]
    · simp [Numeral.Exact, Numeral.decimals]
    · simpa [Numeral.Kept, Numeral.decimals] using hnil
  | cons c fraction =>
    have hpoint : c = dot := by
      have hhead := List.head?_dropWhile_not (fun x : UInt8 => decide (x ≠ dot)) t
      rw [hdrop] at hhead
      simpa using hhead
    have htext := List.takeWhile_append_dropWhile (p := fun x : UInt8 => decide (x ≠ dot)) (l := t)
    rw [hdrop, hpoint] at htext
    generalize t.takeWhile (· ≠ dot) = whole at h htext
    cases herase : eraseZeros (fraction.length - decimalPoint) fraction.reverse with
    | none =>
      simp only [hdrop, herase, Option.map_none] at h
      cases h
    | some f =>
      simp only [hdrop, herase, Option.map_some] at h
      split_ifs at h with hnil
      -- the fraction is what was kept of it, with the zeros that were erased
      have hfraction : fraction = f.reverse ++ List.replicate (fraction.length - decimalPoint) zeroDigit := by
        rw [← List.reverse_inj, List.reverse_append, List.reverse_replicate, List.reverse_reverse]
        exact eraseZeros_eq_some_iff.mp herase
      have hlength : f.reverse.length = min decimalPoint fraction.length := by
        have hlength := congrArg List.length hfraction
        rw [List.length_append, List.length_replicate] at hlength
        omega
      have hkept : fraction.take decimalPoint = f.reverse := by
        have hsame : fraction.take decimalPoint = fraction.take f.reverse.length := by
          rw [List.take_eq_take_iff]
          omega
        rw [hsame]
        conv_lhs => rw [hfraction, List.take_left]
      have hzeros : fraction.drop decimalPoint = List.replicate (fraction.length - decimalPoint) zeroDigit := by
        refine (List.append_cancel_left_eq (fraction.take decimalPoint) _ _).mp ?_
        rw [List.take_append_drop, hkept]
        exact hfraction
      have hdigits := isDigit_of_getXtypeFromString h
      refine ⟨⟨whole, some fraction, fun c hc => hdigits c (by simp [hc]), ?_⟩, ⟨left, right, hleft, hright, ?_⟩, ?_, ?_⟩
      · intro c hc
        rw [Option.getD_some, hfraction, List.mem_append] at hc
        rcases hc with hc | hc
        · exact hdigits c (List.mem_append_left _ (List.mem_append_right _ hc))
        · rw [(List.mem_replicate.mp hc).2]
          decide
      · rw [hs, Numeral.text, Option.elim_some, htext]
      · rw [Numeral.Exact, Numeral.decimals, Option.getD_some, hzeros]
        exact fun c hc => (List.mem_replicate.mp hc).2
      · change whole ++ fraction.take decimalPoint ≠ []
        rw [hkept]
        exact hnil

end

theorem parse_amount_grammar (decimalPoint : ℕ) :
    (∀ amount, parseAmount decimalPoint (printMoney decimalPoint amount) = some amount) ∧
      ∀ s v, parseAmount decimalPoint s = some v ↔
        ∃ n : Numeral, n.Written s ∧ n.Kept decimalPoint ∧ n.Exact decimalPoint ∧ n.Scaled decimalPoint v.toNat := by
  refine ⟨parseAmount_printMoney decimalPoint, fun s v => ⟨fun h => ?_, ?_⟩⟩
  · obtain ⟨n, hs, hexact, hkept⟩ := exists_numeral h
    refine ⟨n, hs, hkept, hexact, (hexact.scaled_iff _).mpr ?_⟩
    rw [hs.parseAmount hexact hkept] at h
    split_ifs at h with hfits
    rw [← Option.some.inj h, UInt64.toNat_ofNat_of_lt' hfits]
  · rintro ⟨n, hs, hkept, hexact, hscaled⟩
    rw [hs.parseAmount hexact hkept, ← (hexact.scaled_iff _).mp hscaled, if_pos v.toNat_lt, UInt64.ofNat_toNat]

theorem point_zero_not_parsed :
    (∃ n : Numeral, n.Written (ascii ".0") ∧ n.whole ++ n.decimals ≠ [] ∧ n.Exact 0 ∧ n.Scaled 0 0) ∧
      parseAmount 0 (ascii ".0") = none := by
  refine ⟨⟨⟨[], some [zeroDigit], by simp, List.forall_mem_singleton.mpr rfl⟩, ⟨[], [], by simp, by simp, by decide⟩, by decide, ?_, ?_⟩, by decide⟩
  · exact fun c hc => by simpa [Numeral.decimals] using hc
  · unfold Numeral.Scaled
    decide

end Velkavo.Cryptonote
