import Velkavo.ByteCodec.Formats
import Mathlib.Data.Nat.Digits.Lemmas

namespace ByteCodec

def ascii (s : String) : Bytes := s.toList.map fun c => UInt8.ofNat c.toNat

def stringOrder (t : Bytes) : List ℕ := t.map UInt8.toNat

theorem stringOrder_injective : Function.Injective stringOrder :=
  List.map_injective_iff.mpr fun _ _ => UInt8.toNat_inj.mp

def isDigit (b : UInt8) : Bool := 0x30 ≤ b && b ≤ 0x39

def decimal (n : ℕ) : Bytes :=
  if n = 0 then [0x30] else (Nat.digits 10 n).reverse.map fun d => UInt8.ofNat (d + 0x30)

def decimalValue (bs : Bytes) : ℕ := bs.foldl (fun n b => 10 * n + (b.toNat - 0x30)) 0

theorem isDigit_iff {b : UInt8} : isDigit b = true ↔ 0x30 ≤ b.toNat ∧ b.toNat ≤ 0x39 := by
  rw [isDigit, Bool.and_eq_true, decide_eq_true_eq, decide_eq_true_eq, UInt8.le_iff_toNat_le,
    UInt8.le_iff_toNat_le]
  exact Iff.rfl

theorem isDigit_ofNat {d : ℕ} (h : d < 10) : isDigit (UInt8.ofNat (d + 0x30)) = true := by
  have hn : (UInt8.ofNat (d + 0x30)).toNat = d + 0x30 := toNat_ofNat (by omega)
  simp only [isDigit, Bool.and_eq_true, decide_eq_true_eq, UInt8.le_iff_toNat_le, hn]
  exact ⟨Nat.le_add_left 48 d, (by omega : d + 48 ≤ 57)⟩

theorem isDigit_of_mem_decimal {n : ℕ} {b : UInt8} (h : b ∈ decimal n) : isDigit b = true := by
  unfold decimal at h
  split at h
  · rw [List.mem_singleton.mp h]
    rfl
  · obtain ⟨d, hd, rfl⟩ := List.mem_map.mp h
    exact isDigit_ofNat (Nat.digits_lt_base (by decide) (List.mem_reverse.mp hd))

theorem decimal_ne_nil (n : ℕ) : decimal n ≠ [] := by
  unfold decimal
  split
  · simp
  · rename_i h
    simp [Nat.digits_ne_nil_iff_ne_zero.mpr h]

theorem decimalValue_digits (l : List ℕ) (h : ∀ d ∈ l, d < 10) :
    decimalValue (l.reverse.map fun d => UInt8.ofNat (d + 0x30)) = Nat.ofDigits 10 l := by
  induction l with
  | nil => rfl
  | cons d l ih =>
    have hd : (UInt8.ofNat (d + 0x30)).toNat = d + 0x30 := toNat_ofNat (by have := h d (by simp); omega)
    have hl := ih fun e he => h e (by simp [he])
    rw [decimalValue] at hl ⊢
    rw [List.reverse_cons, List.map_append, List.foldl_append, hl, Nat.ofDigits_cons]
    simp only [List.map_cons, List.map_nil, List.foldl_cons, List.foldl_nil, hd, Nat.add_sub_cancel]
    exact Nat.add_comm _ _

theorem decimalValue_decimal (n : ℕ) : decimalValue (decimal n) = n := by
  unfold decimal
  split
  · rename_i h
    rw [h]
    rfl
  · rw [decimalValue_digits _ fun d hd => Nat.digits_lt_base (by decide) hd, Nat.ofDigits_digits]

theorem decimalValue_singleton (b : UInt8) : decimalValue [b] = b.toNat - 0x30 := by
  simp [decimalValue]

theorem decimalValue_append (x y : Bytes) :
    decimalValue (x ++ y) = decimalValue x * 10 ^ y.length + decimalValue y := by
  have hfold : ∀ (y : Bytes) (n : ℕ),
      y.foldl (fun n b => 10 * n + (b.toNat - 0x30)) n = n * 10 ^ y.length + decimalValue y := by
    intro y
    induction y with
    | nil => intro n; simp [decimalValue]
    | cons b y ih =>
      intro n
      rw [decimalValue, List.foldl_cons, List.foldl_cons, ih, ih, List.length_cons]
      ring
  rw [decimalValue, List.foldl_append, hfold, ← decimalValue]

theorem decimalValue_lt {s : Bytes} (h : ∀ b ∈ s, isDigit b = true) : decimalValue s < 10 ^ s.length := by
  induction s using List.reverseRecOn with
  | nil => simp [decimalValue]
  | append_singleton s b ih =>
    have hs := ih fun c hc => h c (by simp [hc])
    have hb := isDigit_iff.mp (h b (by simp))
    rw [decimalValue_append, decimalValue_singleton, List.length_append, List.length_singleton, pow_succ]
    omega

theorem pow_length_decimal_le {n : ℕ} (h : n ≠ 0) : 10 ^ (decimal n).length ≤ 10 * n := by
  rw [decimal, if_neg h, List.length_map, List.length_reverse]
  exact Nat.base_pow_length_digits_le 10 n (by decide) h

def hexDigit (b : UInt8) : Option ℕ :=
  if 0x30 ≤ b && b ≤ 0x39 then some (b.toNat - 0x30)
  else if 0x41 ≤ b && b ≤ 0x46 then some (b.toNat - 0x41 + 10)
  else if 0x61 ≤ b && b ≤ 0x66 then some (b.toNat - 0x61 + 10)
  else none

def fromHex : Bytes → Option Bytes
  | [] => some []
  | [_] => none
  | a :: b :: rest => do
    let hi ← hexDigit a
    let lo ← hexDigit b
    let bytes ← fromHex rest
    pure (UInt8.ofNat ((hi <<< 4) ||| lo) :: bytes)

theorem length_fromHex {s bytes : Bytes} (h : fromHex s = some bytes) : s.length = 2 * bytes.length := by
  induction s using fromHex.induct generalizing bytes with
  | case1 => simp only [fromHex, Option.some.injEq] at h; simp [← h]
  | case2 b => simp [fromHex] at h
  | case3 a b rest ih =>
    simp only [fromHex, Option.bind_eq_bind, Option.bind_eq_some_iff, Option.pure_def,
      Option.some.injEq] at h
    obtain ⟨hi, -, lo, -, bs, hbs, rfl⟩ := h
    rw [List.length_cons, List.length_cons, List.length_cons, ih hbs]
    omega

def Blob.ofHex? (n : ℕ) (s : Bytes) : Option (Blob n) :=
  match h : fromHex s with
  | none => none
  | some bytes => if hn : s.length = 2 * n then some ⟨bytes, by have := length_fromHex h; omega⟩ else none

def isSpace (b : UInt8) : Bool := b == 0x20 || (0x09 ≤ b && b ≤ 0x0d)

def extractUInt64 (s : Bytes) : Option UInt64 :=
  let s := s.dropWhile isSpace
  let negative := s.head? == some 0x2d
  let digits := (if negative || s.head? == some 0x2b then s.tail else s).takeWhile isDigit
  if digits = [] ∨ decimalValue digits ≥ 2 ^ 64 then none
  else
    let n := UInt64.ofNat (decimalValue digits)
    some (if negative then 0 - n else n)

def find (pat : Bytes) : Bytes → Option ℕ
  | [] => if pat = [] then some 0 else none
  | c :: s => if pat <+: c :: s then some 0 else (find pat s).map (· + 1)

def findFrom (pat s : Bytes) (pos : ℕ) : Option ℕ := (find pat (s.drop pos)).map (· + pos)

theorem findFrom_append (pat text rest : Bytes) :
    findFrom pat (text ++ rest) text.length = (find pat rest).map (· + text.length) := by
  rw [findFrom, List.drop_left]

def Unbordered (pat : Bytes) : Prop := ∀ k < pat.length, 0 < k → ¬ pat.drop k <+: pat

instance (pat : Bytes) : Decidable (Unbordered pat) := by unfold Unbordered; infer_instance

theorem find_append {pat : Bytes} (hpat : pat ≠ []) (hborder : Unbordered pat) {text : Bytes}
    (htext : ¬ pat <:+: text) (rest : Bytes) : find pat (text ++ (pat ++ rest)) = some text.length := by
  induction text with
  | nil =>
    obtain ⟨p, ps, rfl⟩ := List.exists_cons_of_ne_nil hpat
    rw [List.nil_append, List.cons_append, find, if_pos]
    · rfl
    · exact List.prefix_append (p :: ps) rest
  | cons c text ih =>
    have htail : ¬ pat <:+: text := fun h => htext (List.infix_cons h)
    have hhead : ¬ pat <+: c :: (text ++ (pat ++ rest)) := by
      rw [← List.cons_append]
      intro hpre
      rcases Nat.le_total pat.length (c :: text).length with hle | hle
      · exact htext (List.prefix_of_prefix_length_le hpre (List.prefix_append _ _) hle).isInfix
      · -- the place overlaps the one after the text
        obtain ⟨more, hmore⟩ := List.prefix_of_prefix_length_le (List.prefix_append (c :: text) _) hpre hle
        have hdrop : pat.drop (c :: text).length = more := by rw [← hmore, List.drop_left]
        have hlt : (c :: text).length < pat.length := by
          refine lt_of_le_of_ne hle fun heq => ?_
          have hnil : more = [] := by rw [← hdrop, heq, List.drop_length]
          rw [hnil, List.append_nil] at hmore
          exact htext (hmore ▸ List.infix_refl _)
        have hmore' : more <+: pat ++ rest := by
          refine (List.prefix_append_right_inj (c :: text)).mp ?_
          rw [hmore]
          exact hpre
        refine hborder _ hlt (by simp) ?_
        rw [hdrop]
        refine List.prefix_of_prefix_length_le hmore' (List.prefix_append _ _) ?_
        rw [← hdrop, List.length_drop]
        omega
    rw [List.cons_append, find, if_neg hhead, ih htail]
    rfl

end ByteCodec
