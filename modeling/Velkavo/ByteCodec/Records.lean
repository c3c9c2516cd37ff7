import Velkavo.ByteCodec.Sequences

/-! Values inside byte strings, and records that follow one another to the end of the input. -/

namespace ByteCodec

variable {α β : Type}

class Strict (c : Codec α) : Prop where
  strict_of_read : ∀ {bs a rest}, c.read .accept bs = some (a, rest) → c.read .reject bs = some (a, rest)

namespace Codec

instance strict_byte : Strict byte := ⟨fun {bs _ _} h => by cases bs <;> exact h⟩

instance strict_blob (n : ℕ) : Strict (blob n) := ⟨fun h => h⟩

theorem strict_each (cs : List (Codec α)) (h : ∀ c ∈ cs, Strict c) : Strict (each cs) := by
  induction cs with
  | nil => exact ⟨fun h => h⟩
  | cons c cs ih =>
    have hc : Strict c := h c List.mem_cons_self
    have hcs : Strict (each cs) := ih fun d hd => h d (List.mem_cons_of_mem _ hd)
    constructor
    intro bs l rest hread
    obtain ⟨⟨⟨a, l'⟩, rest'⟩, hseq, he⟩ := Option.map_eq_some_iff.mp hread
    obtain ⟨rfl, rfl⟩ := Prod.mk.inj he
    obtain ⟨mid, ha, hl⟩ := read_seq_eq_some.mp hseq
    have hstrict := read_seq_eq_some.mpr ⟨mid, hc.strict_of_read ha, hcs.strict_of_read hl⟩
    exact Option.map_eq_some_iff.mpr ⟨_, hstrict, rfl⟩

instance strict_many (n : ℕ) (c : Codec α) [Strict c] : Strict (many n c) :=
  strict_each _ fun d hd => by rw [List.eq_of_mem_replicate hd]; infer_instance

instance strict_varint64_seq (d : Codec β) [Strict d] [Consumes d] : Strict (seq varint64 d) := by
  constructor
  rintro bs ⟨n, b⟩ rest hread
  obtain ⟨mid, hn, hb⟩ := read_seq_eq_some.mp hread
  have hb' : d.read .reject mid = some (b, rest) := Strict.strict_of_read hb
  have hmid : mid ≠ [] := by
    rw [d.write_of_read hb']
    exact List.append_ne_nil_of_left_ne_nil (Consumes.write_ne_nil b) rest
  obtain ⟨m, hm, rfl⟩ := read_view_eq_some.mp hn
  have hm' : (varint 64).read .reject bs = some (m, mid) := readVarint_reject_of_accept hm hmid
  exact read_seq_eq_some.mpr ⟨mid, read_view_eq_some.mpr ⟨m, hm', rfl⟩, hb'⟩

variable {bs rest : Bytes} {c : Codec α}

theorem read_container_eq_some [Consumes c] {p : AtEnd} {l : List α} :
    (container c).read p bs = some (l, rest) ↔
      ∃ cnt mid, readVarint p 64 bs = some (cnt, mid) ∧ cnt ≤ mid.length ∧ (many cnt c).read p mid = some (l, rest) := by
  change ((varint 64).read p bs).bind _ = _ ↔ _
  rw [Option.bind_eq_some_iff]
  constructor
  · rintro ⟨⟨cnt, mid⟩, hcnt, h⟩
    dsimp only at h
    split_ifs at h with hlt
    exact ⟨cnt, mid, hcnt, Nat.le_of_not_lt hlt, h⟩
  · rintro ⟨cnt, mid, hcnt, hle, h⟩
    refine ⟨(cnt, mid), hcnt, ?_⟩
    dsimp only
    rw [if_neg (Nat.not_lt.mpr hle)]
    exact h

theorem strict_container [Consumes c] [Strict c] {l : List α}
    (h : (container c).read .accept bs = some (l, rest)) :
    (container c).read .reject bs = some (l, rest) ∨ (l = [] ∧ rest = []) := by
  obtain ⟨cnt, mid, hcnt, hle, hmany⟩ := read_container_eq_some.mp h
  have hmany' : (many cnt c).read .reject mid = some (l, rest) := Strict.strict_of_read hmany
  by_cases hmid : mid = []
  · right
    subst hmid
    have hzero : cnt = 0 := Nat.le_zero.mp hle
    subst hzero
    have hl := ((valid_many 0 c l).mp ((many 0 c).valid_of_read hmany)).1
    have hrest := (many 0 c).write_of_read hmany'
    exact ⟨List.length_eq_zero_iff.mp hl, (List.append_eq_nil_iff.mp hrest.symm).2⟩
  · left
    exact read_container_eq_some.mpr ⟨cnt, mid, readVarint_reject_of_accept hcnt hmid, hle, hmany'⟩

theorem write_of_strict [Strict c] {p : AtEnd} {a : α} (h : c.read p bs = some (a, rest)) :
    bs = c.write a ++ rest := by
  cases p with
  | accept => exact c.write_of_read (Strict.strict_of_read h)
  | reject => exact c.write_of_read h

def nested (c : Codec α) [Strict c] : Codec α where
  valid a := c.valid a && byteString.valid (c.write a)
  kept := c.kept
  write a := byteString.write (c.write a)
  read p bs := do
    let (field, bs) ← byteString.read p bs
    let a ← readAll c p field
    pure (a, bs)
  read_write p a rest hv := by
    obtain ⟨ha, hw⟩ := Bool.and_eq_true_iff.mp hv
    have hfield := byteString.read_write p (c.write a) rest hw
    rw [Exact.kept_eq] at hfield
    simp [hfield, readAll_write_kept c p ha]
  valid_of_read := by
    intro p bs a rest hr
    obtain ⟨⟨field, mid⟩, hfield, hr⟩ := Option.bind_eq_some_iff.mp hr
    obtain ⟨b, hb, hr⟩ := Option.bind_eq_some_iff.mp hr
    obtain ⟨rfl, -⟩ := Prod.mk.inj (Option.some.inj hr)
    have hinner := readAll_eq_some.mp hb
    have hwrite := write_of_strict hinner
    rw [List.append_nil] at hwrite
    rw [Bool.and_eq_true, ← hwrite]
    exact ⟨c.valid_of_read hinner, byteString.valid_of_read hfield⟩
  write_of_read := by
    intro bs a rest hr
    obtain ⟨⟨field, mid⟩, hfield, hr⟩ := Option.bind_eq_some_iff.mp hr
    obtain ⟨b, hb, hr⟩ := Option.bind_eq_some_iff.mp hr
    obtain ⟨rfl, rfl⟩ := Prod.mk.inj (Option.some.inj hr)
    have hwrite := c.write_of_read (readAll_eq_some.mp hb)
    rw [List.append_nil] at hwrite
    rw [← hwrite]
    exact byteString.write_of_read hfield

theorem read_nested_eq_some [Strict c] {p : AtEnd} {a : α} :
    (nested c).read p bs = some (a, rest) ↔
      ∃ field, byteString.read p bs = some (field, rest) ∧ c.read p field = some (a, []) := by
  change (byteString.read p bs).bind _ = _ ↔ _
  rw [Option.bind_eq_some_iff]
  constructor
  · rintro ⟨⟨field, mid⟩, hfield, hr⟩
    obtain ⟨b, hb, hr⟩ := Option.bind_eq_some_iff.mp hr
    obtain ⟨rfl, rfl⟩ := Prod.mk.inj (Option.some.inj hr)
    exact ⟨field, hfield, readAll_eq_some.mp hb⟩
  · rintro ⟨field, hfield, ha⟩
    exact ⟨(field, rest), hfield, Option.bind_eq_some_iff.mpr ⟨a, readAll_eq_some.mpr ha, rfl⟩⟩

instance strict_nested (c : Codec α) [Strict c] [Consumes c] : Strict (nested c) := by
  constructor
  intro bs a rest hread
  obtain ⟨field, hfield, ha⟩ := read_nested_eq_some.mp hread
  rcases strict_container hfield with hstrict | ⟨rfl, -⟩
  · exact read_nested_eq_some.mpr ⟨field, hstrict, Strict.strict_of_read ha⟩
  · have hnil := write_of_strict ha
    rw [List.append_nil] at hnil
    exact absurd hnil.symm (Consumes.write_ne_nil a)

instance exact_nested (c : Codec α) [Strict c] [Exact c] : Exact (nested c) := ⟨fun a => Exact.kept_eq (c := c) a⟩

end Codec

inductive Reads (read : Bytes → Option (α × Bytes)) : Bytes → List α → Bytes → Prop
  | nil (bs : Bytes) : Reads read bs [] bs
  | cons {bs mid rest : Bytes} {a : α} {l : List α} (h : read bs = some (a, mid)) (hs : Reads read mid l rest) :
    Reads read bs (a :: l) rest

def readRecords (read : Bytes → Option (α × Bytes)) : ℕ → Bytes → List α × Bytes
  | 0, bs => ([], bs)
  | fuel + 1, bs =>
    match read bs with
    | none => ([], bs)
    | some (a, mid) => (a :: (readRecords read fuel mid).1, (readRecords read fuel mid).2)

section

variable {read : Bytes → Option (α × Bytes)}

theorem reads_readRecords (fuel : ℕ) (bs : Bytes) :
    Reads read bs (readRecords read fuel bs).1 (readRecords read fuel bs).2 := by
  induction fuel generalizing bs with
  | zero => exact .nil bs
  | succ fuel ih =>
    rw [readRecords]
    cases h : read bs with
    | none => exact .nil bs
    | some x => exact .cons h (ih x.2)

variable {bs rest : Bytes} {l : List α}

theorem Reads.append {mid : Bytes} {l' : List α} (h : Reads read bs l mid) (h' : Reads read mid l' rest) :
    Reads read bs (l ++ l') rest := by
  induction h with
  | nil => exact h'
  | cons ha _ ih => exact .cons ha (ih h')

theorem Reads.exists_of_append {l' : List α} (h : Reads read bs (l ++ l') rest) :
    ∃ mid, Reads read bs l mid ∧ Reads read mid l' rest := by
  induction l generalizing bs with
  | nil => exact ⟨bs, .nil bs, h⟩
  | cons a l ih =>
    cases h with
    | cons ha hs =>
      obtain ⟨mid, hl, hl'⟩ := ih hs
      exact ⟨mid, .cons ha hl, hl'⟩

theorem reads_singleton {a : α} : Reads read bs [a] rest ↔ read bs = some (a, rest) := by
  constructor
  · intro h
    cases h with
    | cons ha hs =>
      cases hs
      exact ha
  · intro h
    exact .cons h (.nil rest)

theorem Reads.rest_unique {rest' : Bytes} (h : Reads read bs l rest) (h' : Reads read bs l rest') :
    rest = rest' := by
  induction h with
  | nil =>
    cases h'
    rfl
  | cons ha _ ih =>
    cases h' with
    | cons ha' hs' =>
      rw [ha] at ha'
      obtain ⟨-, rfl⟩ := Prod.mk.inj (Option.some.inj ha')
      exact ih hs'

theorem readRecords_eq_iff (hshort : ∀ {bs a rest}, read bs = some (a, rest) → rest.length < bs.length) {fuel : ℕ} (hfuel : bs.length ≤ fuel) : readRecords read fuel bs = (l, []) ↔ Reads read bs l [] := by
  constructor
  · intro h
    have hreads : Reads read bs (readRecords read fuel bs).1 (readRecords read fuel bs).2 := reads_readRecords fuel bs
    rwa [h] at hreads
  · intro h
    induction fuel generalizing bs l with
    | zero =>
      have hnil := List.length_eq_zero_iff.mp (Nat.le_zero.mp hfuel)
      subst hnil
      cases h with
      | nil => rfl
      | cons ha _ => exact absurd (hshort ha) (Nat.not_lt_zero _)
    | succ fuel ih =>
      cases h with
      | nil =>
        cases hread : read [] with
        | none => rw [readRecords, hread]
        | some x => exact absurd (hshort hread) (Nat.not_lt_zero _)
      | cons ha hs =>
        have hlt := hshort ha
        rw [readRecords, ha]
        dsimp only
        rw [ih (by omega) hs]

end

end ByteCodec
