import Velkavo.ByteCodec.Formats

namespace ByteCodec

class Consumes {α : Type} (c : Codec α) : Prop where
  write_ne_nil : ∀ a, c.write a ≠ []

namespace Codec

variable {α β : Type}

instance : Consumes byte := ⟨fun _ => by simp [byte]⟩

instance (n : ℕ) : Consumes (blob (n + 1)) :=
  ⟨fun x h => by simpa [show x.bytes = [] from h] using x.length_eq⟩

instance (bits : ℕ) : Consumes (varint bits) := ⟨writeVarint_ne_nil⟩

instance (c : Codec α) (d : α → Codec β) (h : ∀ a, d (c.kept a) = d a) [Consumes c] :
    Consumes (dep c d h) :=
  ⟨fun x hx => Consumes.write_ne_nil (c := c) x.1 (List.append_eq_nil_iff.mp hx).1⟩

instance (c : Codec α) (d : Codec β) [Consumes c] : Consumes (seq c d) :=
  inferInstanceAs (Consumes (dep c _ _))

instance (c : Codec β) (get : α → β) (put : β → α) (h : ∀ b, c.valid b = true → get (put b) = b)
    [Consumes c] : Consumes (view c get put h) :=
  ⟨fun a => Consumes.write_ne_nil (c := c) (get a)⟩

instance : Consumes varint64 := inferInstanceAs (Consumes (view (varint 64) _ _ _))

def inject (c : Codec β) (get : α → Option β) (put : β → α) (h : ∀ b, get (put b) = some b) : Codec α where
  valid a := (get a).elim false c.valid
  kept a := (get a).elim a fun b => put (c.kept b)
  write a := (get a).elim [] c.write
  read p bs := (c.read p bs).map fun x => (put x.1, x.2)
  read_write p a rest hv := by
    cases hg : get a with
    | none => simp [hg] at hv
    | some b =>
      simp only [hg, Option.elim_some] at hv ⊢
      simp [c.read_write p b rest hv]
  valid_of_read := by
    intro p bs a rest hr
    obtain ⟨⟨b, rest'⟩, hb, he⟩ := Option.map_eq_some_iff.mp hr
    obtain ⟨rfl, rfl⟩ := Prod.mk.inj he
    simpa [h] using c.valid_of_read hb
  write_of_read := by
    intro bs a rest hr
    obtain ⟨⟨b, rest'⟩, hb, he⟩ := Option.map_eq_some_iff.mp hr
    obtain ⟨rfl, rfl⟩ := Prod.mk.inj he
    simpa [h] using c.write_of_read hb

theorem exact_inject {c : Codec β} [Exact c] {get : α → Option β} {put : β → α}
    {h : ∀ b, get (put b) = some b} (hp : ∀ a b, get a = some b → put b = a) :
    Exact (inject c get put h) := by
  constructor
  intro a
  cases hg : get a with
  | none => simp [inject, hg]
  | some b => simp [inject, hg, Exact.kept_eq, hp a b hg]

def only [DecidableEq α] (x : α) : Codec α :=
  inject (absent ()) (fun a => if a = x then some () else none) (fun _ => x) fun _ => if_pos rfl

instance [DecidableEq α] (x : α) : Exact (only x) := by
  constructor
  intro a
  by_cases h : a = x <;> simp [only, inject, h]

theorem valid_only [DecidableEq α] (x a : α) : (only x).valid a = true ↔ a = x := by
  by_cases h : a = x <;> simp [only, inject, absent, h]

def tagged {τ : Type} (c : Codec τ) [Exact c] (tag : α → τ) (branch : τ → Codec α)
    (h : ∀ t a, (branch t).valid a = true → tag a = t) : Codec α :=
  view (andThen c branch) (fun a => (tag a, a)) Prod.snd fun x hx => by
    rw [h x.1 x.2 (Bool.and_eq_true_iff.mp hx).2]

instance {τ : Type} (c : Codec τ) [Exact c] [Consumes c] (tag : α → τ) (branch : τ → Codec α)
    (h : ∀ t a, (branch t).valid a = true → tag a = t) : Consumes (tagged c tag branch h) :=
  ⟨fun a ha => Consumes.write_ne_nil (c := c) (tag a) (List.append_eq_nil_iff.mp ha).1⟩

theorem exact_tagged {τ : Type} {c : Codec τ} [Exact c] {tag : α → τ} {branch : τ → Codec α}
    {h : ∀ t a, (branch t).valid a = true → tag a = t} (hb : ∀ t, Exact (branch t)) :
    Exact (tagged c tag branch h) :=
  exact_view fun _ => rfl

def uncons : List α → Option (α × List α)
  | [] => none
  | a :: l => some (a, l)

def each : List (Codec α) → Codec (List α)
  | [] => inject (absent ()) (fun l => if l.isEmpty then some () else none) (fun _ => []) fun _ => rfl
  | c :: cs => inject (seq c (each cs)) uncons (fun x => x.1 :: x.2) fun _ => rfl

def many (n : ℕ) (c : Codec α) : Codec (List α) := each (List.replicate n c)

theorem exact_each (cs : List (Codec α)) (h : ∀ c ∈ cs, Exact c) : Exact (each cs) := by
  induction cs with
  | nil => exact ⟨fun l => by cases l <;> simp [each, inject, absent]⟩
  | cons c cs ih =>
    have hc : Exact c := h c (by simp)
    have hcs : Exact (each cs) := ih fun d hd => h d (by simp [hd])
    refine exact_inject fun l x hx => ?_
    cases l with
    | nil => simp [uncons] at hx
    | cons a l => cases hx; rfl

instance (n : ℕ) (c : Codec α) [Exact c] : Exact (many n c) :=
  exact_each _ fun d hd => by rw [List.eq_of_mem_replicate hd]; infer_instance

theorem valid_each_cons (c : Codec α) (cs : List (Codec α)) (a : α) (l : List α) :
    (each (c :: cs)).valid (a :: l) = (c.valid a && (each cs).valid l) := rfl

theorem write_each_cons (c : Codec α) (cs : List (Codec α)) (a : α) (l : List α) :
    (each (c :: cs)).write (a :: l) = c.write a ++ (each cs).write l := rfl

theorem kept_each_cons (c : Codec α) (cs : List (Codec α)) (a : α) (l : List α) :
    (each (c :: cs)).kept (a :: l) = c.kept a :: (each cs).kept l := rfl

theorem valid_many (n : ℕ) (c : Codec α) (l : List α) :
    (many n c).valid l = true ↔ l.length = n ∧ ∀ a ∈ l, c.valid a = true := by
  induction n generalizing l with
  | zero => cases l <;> simp [many, each, inject, absent]
  | succ n ih =>
    cases l with
    | nil => simp [many, List.replicate_succ, each, inject, uncons]
    | cons a l =>
      rw [many, List.replicate_succ, valid_each_cons, Bool.and_eq_true, ← many, ih l]
      simp only [List.length_cons, Nat.add_right_cancel_iff, List.forall_mem_cons]
      tauto

theorem write_many (c : Codec α) (l : List α) : (many l.length c).write l = l.flatMap c.write := by
  induction l with
  | nil => rfl
  | cons a l ih =>
    rw [List.length_cons, many, List.replicate_succ, write_each_cons, ← many, ih, List.flatMap_cons]

theorem kept_many (c : Codec α) (l : List α) : (many l.length c).kept l = l.map c.kept := by
  induction l with
  | nil => rfl
  | cons a l ih =>
    rw [List.length_cons, many, List.replicate_succ, kept_each_cons, ← many, ih, List.map_cons]

theorem length_le_flatMap_write (c : Codec α) [Consumes c] (l : List α) :
    l.length ≤ (l.flatMap c.write).length := by
  induction l with
  | nil => simp
  | cons a l ih =>
    have ha := List.length_pos_iff.mpr (Consumes.write_ne_nil (c := c) a)
    rw [List.flatMap_cons, List.length_cons, List.length_append]
    omega

def container (c : Codec α) [Consumes c] : Codec (List α) where
  valid l := decide (l.length < 2 ^ 64) && l.all c.valid
  kept l := l.map c.kept
  write l := writeVarint l.length ++ l.flatMap c.write
  read p bs := do
    let (cnt, bs) ← (varint 64).read p bs
    if bs.length < cnt then none else (many cnt c).read p bs
  read_write p l rest hv := by
    obtain ⟨hl, hall⟩ := Bool.and_eq_true_iff.mp hv
    have hcnt := (varint 64).read_write p l.length (l.flatMap c.write ++ rest) hl
    have hle := length_le_flatMap_write c l
    have hmany := (many l.length c).read_write p l rest
      ((valid_many _ c l).mpr ⟨rfl, List.all_eq_true.mp hall⟩)
    rw [write_many, kept_many] at hmany
    have hcnt' : (varint 64).read p (writeVarint l.length ++ (l.flatMap c.write ++ rest)) =
      some (l.length, l.flatMap c.write ++ rest) := hcnt
    have hge : ¬ (l.flatMap c.write ++ rest).length < l.length := by
      rw [List.length_append]; omega
    simp only [List.append_assoc, hcnt', Option.bind_eq_bind, Option.bind_some, if_neg hge, hmany]
  valid_of_read := by
    intro p bs l rest hr
    simp only [Option.bind_eq_bind, Option.bind_eq_some_iff, Prod.exists] at hr
    obtain ⟨cnt, bs₁, hcnt, hr⟩ := hr
    split at hr
    · simp at hr
    obtain ⟨rfl, hall⟩ := (valid_many cnt c l).mp ((many cnt c).valid_of_read hr)
    simp only [Bool.and_eq_true, List.all_eq_true]
    exact ⟨by simpa [varint] using (varint 64).valid_of_read hcnt, hall⟩
  write_of_read := by
    intro bs l rest hr
    simp only [Option.bind_eq_bind, Option.bind_eq_some_iff, Prod.exists] at hr
    obtain ⟨cnt, bs₁, hcnt, hr⟩ := hr
    split at hr
    · simp at hr
    obtain ⟨rfl, -⟩ := (valid_many cnt c l).mp ((many cnt c).valid_of_read hr)
    have h₁ := (varint 64).write_of_read hcnt
    have h₂ := (many l.length c).write_of_read hr
    rw [write_many] at h₂
    rw [h₁, h₂, List.append_assoc]
    rfl

instance (c : Codec α) [Consumes c] [Exact c] : Exact (container c) :=
  ⟨fun l => List.map_id'' (fun a => Exact.kept_eq a) l⟩

instance (c : Codec α) [Consumes c] : Consumes (container c) :=
  ⟨fun l hl => writeVarint_ne_nil l.length (List.append_eq_nil_iff.mp hl).1⟩

@[simp] theorem valid_blob (n : ℕ) (x : Blob n) : (blob n).valid x = true := rfl

theorem valid_container (c : Codec α) [Consumes c] (l : List α) :
    (container c).valid l = true ↔ l.length < 2 ^ 64 ∧ ∀ a ∈ l, c.valid a = true := by
  simp [container]

def counted (cnt : Codec UInt32) [Exact cnt] (limit : ℕ) (c : Codec α) : Codec (List α) :=
  view (andThen (checked cnt fun n => decide (n.toNat ≤ limit)) fun n => many n.toNat c)
    (fun l => (UInt32.ofNat l.length, l)) Prod.snd fun x hx => by
      have hl := ((valid_many _ _ _).mp (Bool.and_eq_true_iff.mp hx).2).1
      rw [hl, UInt32.ofNat_toNat]

theorem toNat_ofNat_length {l : List α} {limit : ℕ} (hlimit : limit < 2 ^ 32) (h : l.length ≤ limit) :
    (UInt32.ofNat l.length).toNat = l.length :=
  UInt32.toNat_ofNat_of_lt' (h.trans_lt hlimit)

theorem valid_counted (cnt : Codec UInt32) [Exact cnt] (hcnt : ∀ n, cnt.valid n = true) {limit : ℕ}
    (hlimit : limit < 2 ^ 32) (c : Codec α) (l : List α) :
    (counted cnt limit c).valid l = true ↔ l.length ≤ limit ∧ ∀ a ∈ l, c.valid a = true := by
  have hiff : (counted cnt limit c).valid l = true ↔
      (UInt32.ofNat l.length).toNat ≤ limit ∧
        (many (UInt32.ofNat l.length).toNat c).valid l = true := by
    simp [counted, view, andThen, dep, checked, filter, hcnt]
  rw [hiff, valid_many]
  constructor
  · rintro ⟨hle, hl, hall⟩
    exact ⟨by omega, hall⟩
  · rintro ⟨hle, hall⟩
    have he := toNat_ofNat_length hlimit hle
    exact ⟨by omega, he.symm, hall⟩

theorem kept_counted (cnt : Codec UInt32) [Exact cnt] {limit : ℕ} (c : Codec α) {l : List α}
    (h : (counted cnt limit c).valid l = true) : (counted cnt limit c).kept l = l.map c.kept := by
  have hl := ((valid_many _ _ _).mp (Bool.and_eq_true_iff.mp h).2).1
  rw [← kept_many c l]
  simp only [counted, view, andThen, dep]
  exact congrArg (fun n => (many n c).kept l) hl.symm

def byteString : Codec Bytes := container byte

instance : Exact byteString := inferInstanceAs (Exact (container byte))

theorem write_byteString (l : Bytes) : byteString.write l = writeVarint l.length ++ l := by
  have hflat : l.flatMap byte.write = l := List.flatMap_singleton' l
  change writeVarint l.length ++ l.flatMap byte.write = _
  rw [hflat]

theorem valid_byteString (l : Bytes) : byteString.valid l = true ↔ l.length < 2 ^ 64 := by
  simp [byteString, container, byte]

end Codec

end ByteCodec
