import Mathlib.Data.List.Basic

namespace ByteCodec

abbrev Bytes := List UInt8

/-- What a reader does with a variable-length number that is cut off by the end of the input. -/
inductive AtEnd
  | accept
  | reject
  deriving DecidableEq, Repr

/--
A two-way byte format. `valid` holds for the values the writer takes, `kept` is the part of a
value that the bytes carry. Only a reader that rejects cut-off numbers has to be canonical.
-/
structure Codec (α : Type) where
  valid : α → Bool
  kept : α → α
  write : α → Bytes
  read : AtEnd → Bytes → Option (α × Bytes)
  read_write : ∀ p a rest, valid a = true → read p (write a ++ rest) = some (kept a, rest)
  valid_of_read : ∀ {p bs a rest}, read p bs = some (a, rest) → valid a = true
  write_of_read : ∀ {bs a rest}, read .reject bs = some (a, rest) → bs = write a ++ rest

class Exact {α : Type} (c : Codec α) : Prop where
  kept_eq : ∀ a, c.kept a = a

namespace Codec

variable {α β : Type} {a : α} {bs rest : Bytes} {p : AtEnd}

theorem kept_of_strict (c : Codec α)
    (h : c.read .reject bs = some (a, rest)) : c.kept a = a := by
  have hw := c.write_of_read h
  have hr := c.read_write .reject a rest (c.valid_of_read h)
  rw [← hw, h] at hr
  simpa using hr.symm

theorem read_of_strict (c : Codec α) (p : AtEnd)
    (h : c.read .reject bs = some (a, rest)) : c.read p bs = some (a, rest) := by
  have hr := c.read_write p a rest (c.valid_of_read h)
  rwa [← c.write_of_read h, c.kept_of_strict h] at hr

def readAll (c : Codec α) (p : AtEnd) (blob : Bytes) : Option α :=
  match c.read p blob with
  | some (a, []) => some a
  | _ => none

theorem readAll_eq_some {c : Codec α} {blob : Bytes} :
    readAll c p blob = some a ↔ c.read p blob = some (a, []) := by
  unfold readAll
  constructor
  · intro h
    split at h
    · rename_i hr
      rw [hr, Option.some.inj h]
    · simp at h
  · intro h
    rw [h]

theorem readAll_write_kept (c : Codec α) (p : AtEnd) (h : c.valid a = true) :
    readAll c p (c.write a) = some (c.kept a) := by
  have hr := c.read_write p a [] h
  rw [List.append_nil] at hr
  exact readAll_eq_some.mpr hr

theorem readAll_write (c : Codec α) [Exact c] (p : AtEnd) (h : c.valid a = true) :
    readAll c p (c.write a) = some a := by
  rw [readAll_write_kept c p h, Exact.kept_eq]

theorem write_eq_iff_strict (c : Codec α)
    (h : c.read p bs = some (a, [])) :
    c.write a = bs ↔ ∃ b, c.read .reject bs = some (b, []) := by
  constructor
  · intro hw
    have hr := c.read_write .reject a [] (c.valid_of_read h)
    rw [List.append_nil, hw] at hr
    exact ⟨_, hr⟩
  · rintro ⟨b, hb⟩
    have hp := c.read_of_strict p hb
    have hab : a = b := by simpa [h] using hp
    rw [hab]
    simpa using (c.write_of_read hb).symm

/-- Fixed bytes carry nothing: the reader returns `a` and consumes no input. -/
def absent (a : α) : Codec α where
  valid _ := true
  kept _ := a
  write _ := []
  read _ bs := some (a, bs)
  read_write _ _ _ _ := rfl
  valid_of_read _ := rfl
  write_of_read h := by simp at h; simp [h.2]

def fail : Codec α where
  valid _ := false
  kept a := a
  write _ := []
  read _ _ := none
  read_write _ _ _ h := by simp at h
  valid_of_read h := by simp at h
  write_of_read h := by simp at h

def dep (c : Codec α) (d : α → Codec β) (h : ∀ a, d (c.kept a) = d a) : Codec (α × β) where
  valid x := c.valid x.1 && (d x.1).valid x.2
  kept x := (c.kept x.1, (d x.1).kept x.2)
  write x := c.write x.1 ++ (d x.1).write x.2
  read p bs := do
    let (a, bs) ← c.read p bs
    let (b, bs) ← (d a).read p bs
    pure ((a, b), bs)
  read_write p x rest hv := by
    obtain ⟨ha, hb⟩ := Bool.and_eq_true_iff.mp hv
    have h₁ := c.read_write p x.1 ((d x.1).write x.2 ++ rest) ha
    have h₂ := (d x.1).read_write p x.2 rest hb
    simp [List.append_assoc, h₁, h, h₂]
  valid_of_read := by
    rintro p bs ⟨a, b⟩ rest hr
    simp only [Option.bind_eq_bind, Option.bind_eq_some_iff, Option.pure_def, Option.some.injEq,
      Prod.mk.injEq, Prod.exists] at hr
    obtain ⟨a', bs₁, h₁, b', bs₂, h₂, ⟨rfl, rfl⟩, rfl⟩ := hr
    simp [c.valid_of_read h₁, (d a').valid_of_read h₂]
  write_of_read := by
    rintro bs ⟨a, b⟩ rest hr
    simp only [Option.bind_eq_bind, Option.bind_eq_some_iff, Option.pure_def, Option.some.injEq,
      Prod.mk.injEq, Prod.exists] at hr
    obtain ⟨a', bs₁, h₁, b', bs₂, h₂, ⟨rfl, rfl⟩, rfl⟩ := hr
    rw [c.write_of_read h₁, (d a').write_of_read h₂, List.append_assoc]

theorem read_dep_eq_some {c : Codec α} {d : α → Codec β} {h : ∀ a, d (c.kept a) = d a} {b : β} :
    (dep c d h).read p bs = some ((a, b), rest) ↔
      ∃ mid, c.read p bs = some (a, mid) ∧ (d a).read p mid = some (b, rest) := by
  simp only [dep, Option.bind_eq_bind, Option.bind_eq_some_iff, Option.pure_def, Option.some.injEq,
    Prod.mk.injEq, Prod.exists]
  constructor
  · rintro ⟨a', mid, h₁, b', rest', h₂, ⟨rfl, rfl⟩, rfl⟩
    exact ⟨mid, h₁, h₂⟩
  · rintro ⟨mid, h₁, h₂⟩
    exact ⟨a, mid, h₁, b, rest, h₂, ⟨rfl, rfl⟩, rfl⟩

def seq (c : Codec α) (d : Codec β) : Codec (α × β) := dep c (fun _ => d) (fun _ => rfl)

theorem valid_seq (c : Codec α) (d : Codec β) (x : α × β) : (seq c d).valid x = (c.valid x.1 && d.valid x.2) := rfl

theorem read_seq_eq_some {c : Codec α} {d : Codec β} {b : β} :
    (seq c d).read p bs = some ((a, b), rest) ↔
      ∃ mid, c.read p bs = some (a, mid) ∧ d.read p mid = some (b, rest) :=
  read_dep_eq_some

def view (c : Codec β) (get : α → β) (put : β → α)
    (h : ∀ b, c.valid b = true → get (put b) = b) : Codec α where
  valid a := c.valid (get a)
  kept a := put (c.kept (get a))
  write a := c.write (get a)
  read p bs := (c.read p bs).map fun x => (put x.1, x.2)
  read_write p a rest hv := by simp [c.read_write p (get a) rest hv]
  valid_of_read := by
    intro p bs a rest hr
    obtain ⟨⟨b, rest'⟩, hb, he⟩ := Option.map_eq_some_iff.mp hr
    obtain ⟨rfl, rfl⟩ := Prod.mk.inj he
    have hv := c.valid_of_read hb
    simpa only [h b hv] using hv
  write_of_read := by
    intro bs a rest hr
    obtain ⟨⟨b, rest'⟩, hb, he⟩ := Option.map_eq_some_iff.mp hr
    obtain ⟨rfl, rfl⟩ := Prod.mk.inj he
    simpa only [h b (c.valid_of_read hb)] using c.write_of_read hb

theorem valid_view (c : Codec β) (get : α → β) (put : β → α)
    (h : ∀ b, c.valid b = true → get (put b) = b) (a : α) : (view c get put h).valid a = c.valid (get a) := rfl

theorem read_view_eq_some {c : Codec β} {get : α → β} {put : β → α}
    {h : ∀ b, c.valid b = true → get (put b) = b} :
    (view c get put h).read p bs = some (a, rest) ↔ ∃ b, c.read p bs = some (b, rest) ∧ put b = a := by
  simp only [view, Option.map_eq_some_iff, Prod.mk.injEq, Prod.exists]
  constructor
  · rintro ⟨b, rest', hb, rfl, rfl⟩
    exact ⟨b, hb, rfl⟩
  · rintro ⟨b, hb, rfl⟩
    exact ⟨b, rest, hb, rfl, rfl⟩

def filter (c : Codec α) (ok : α → Bool)
    (h : ∀ a, c.valid a = true → ok a = true → ok (c.kept a) = true) : Codec α where
  valid a := c.valid a && ok a
  kept := c.kept
  write := c.write
  read p bs := (c.read p bs).filter fun x => ok x.1
  read_write p a rest hv := by
    obtain ⟨ha, hok⟩ := Bool.and_eq_true_iff.mp hv
    simp [c.read_write p a rest ha, h a ha hok]
  valid_of_read := by
    intro p bs a rest hr
    obtain ⟨hr, hok⟩ := Option.filter_eq_some_iff.mp hr
    simp [c.valid_of_read hr, hok]
  write_of_read := by
    intro bs a rest hr
    exact c.write_of_read (Option.filter_eq_some_iff.mp hr).1

end Codec

end ByteCodec
