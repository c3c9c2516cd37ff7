import Velkavo.ByteCodec.Sequences

/-! Formats whose values all take the same number of bytes. -/

namespace ByteCodec.Codec

variable {α β : Type}

def HasSize (c : Codec α) (n : ℕ) : Prop := ∀ a, c.valid a = true → (c.write a).length = n

theorem hasSize_blob (n : ℕ) : HasSize (blob n) n := fun x _ => x.length_eq

variable {c : Codec α} {n : ℕ}

theorem HasSize.seq {d : Codec β} {m : ℕ} (hc : HasSize c m) (hd : HasSize d n) :
    HasSize (Codec.seq c d) (m + n) := by
  intro x hx
  obtain ⟨h₁, h₂⟩ := Bool.and_eq_true_iff.mp hx
  change (c.write x.1 ++ d.write x.2).length = _
  rw [List.length_append, hc _ h₁, hd _ h₂]

theorem HasSize.view {c : Codec β} (hc : HasSize c n) {get : α → β} {put : β → α}
    {h : ∀ b, c.valid b = true → get (put b) = b} : HasSize (Codec.view c get put h) n :=
  fun a ha => hc (get a) ha

theorem length_flatMap_write (hc : HasSize c n) {l : List α}
    (hl : ∀ a ∈ l, c.valid a = true) : (l.flatMap c.write).length = l.length * n := by
  induction l with
  | nil => exact (Nat.zero_mul n).symm
  | cons a l ih =>
    obtain ⟨ha, hl⟩ := List.forall_mem_cons.mp hl
    rw [List.flatMap_cons, List.length_append, hc a ha, ih hl, List.length_cons, Nat.succ_mul, Nat.add_comm]

theorem HasSize.many (hc : HasSize c n) (k : ℕ) : HasSize (Codec.many k c) (k * n) := by
  intro l hl
  obtain ⟨rfl, hvalid⟩ := (valid_many k c l).mp hl
  rw [write_many, length_flatMap_write hc hvalid]

theorem length_write_container [Consumes c] (hc : HasSize c n) {l : List α}
    (hshort : l.length < 128) (hl : ∀ a ∈ l, c.valid a = true) :
    ((container c).write l).length = 1 + l.length * n := by
  change (writeVarint l.length ++ l.flatMap c.write).length = _
  rw [List.length_append, writeVarint_small hshort, length_flatMap_write hc hl, List.length_singleton]

theorem write_kept (c : Codec α) {a : α} (h : c.valid a = true) : c.write (c.kept a) = c.write a := by
  have hr := c.read_write .reject a [] h
  simpa using (c.write_of_read hr).symm

end ByteCodec.Codec
