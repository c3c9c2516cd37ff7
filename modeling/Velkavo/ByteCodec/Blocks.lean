import Velkavo.ByteCodec.Formats
import Mathlib.Data.Nat.Digits.Lemmas

namespace ByteCodec

def places (b : ℕ) : ℕ → ℕ → List ℕ
  | 0, _ => []
  | k + 1, n => n % b :: places b k (n / b)

theorem length_places (b k n : ℕ) : (places b k n).length = k := by
  induction k generalizing n with
  | zero => rfl
  | succ k ih => simp [places, ih]

theorem lt_of_mem_places {b : ℕ} (hb : 0 < b) {k n d : ℕ} (h : d ∈ places b k n) : d < b := by
  induction k generalizing n with
  | zero => simp [places] at h
  | succ k ih =>
    rcases List.mem_cons.mp h with rfl | h
    · exact Nat.mod_lt _ hb
    · exact ih h

theorem ofDigits_places {b k n : ℕ} (h : n < b ^ k) : Nat.ofDigits b (places b k n) = n := by
  induction k generalizing n with
  | zero =>
    rw [pow_zero, Nat.lt_one_iff] at h
    rw [h, places, Nat.ofDigits_nil]
  | succ k ih =>
    have hdiv : n / b < b ^ k := Nat.div_lt_of_lt_mul (by rwa [pow_succ, Nat.mul_comm] at h)
    rw [places, Nat.ofDigits_cons, ih hdiv]
    exact Nat.mod_add_div n b

theorem places_ofDigits {b : ℕ} (ds : List ℕ) (h : ∀ d ∈ ds, d < b) : places b ds.length (Nat.ofDigits b ds) = ds := by
  induction ds with
  | nil => rfl
  | cons d ds ih =>
    obtain ⟨hd, hds⟩ := List.forall_mem_cons.mp h
    have hmod : (d + b * Nat.ofDigits b ds) % b = d := by rw [Nat.add_mul_mod_self_left, Nat.mod_eq_of_lt hd]
    have hdiv : (d + b * Nat.ofDigits b ds) / b = Nat.ofDigits b ds := by
      rw [Nat.add_mul_div_left _ _ (Nat.zero_lt_of_lt hd), Nat.div_eq_of_lt hd, Nat.zero_add]
    rw [List.length_cons, places, Nat.ofDigits_cons, hmod, hdiv, ih hds]

section

variable {α : Type}

def chunks (n : ℕ) (l : List α) : List (List α) :=
  (List.range (l.length / n)).map fun i => (l.drop (i * n)).take n

def lastChunk (n : ℕ) (l : List α) : List α := l.drop (l.length / n * n)

variable {l : List α} {n : ℕ}

theorem chunks_of_lt (h : l.length < n) : chunks n l = [] := by
  rw [chunks, Nat.div_eq_of_lt h]
  rfl

theorem lastChunk_of_lt (h : l.length < n) : lastChunk n l = l := by
  rw [lastChunk, Nat.div_eq_of_lt h, Nat.zero_mul, List.drop_zero]

theorem length_append_div (hn : 0 < n) {c : List α} (hc : c.length = n) (l : List α) :
    (c ++ l).length / n = l.length / n + 1 := by
  rw [List.length_append, hc, Nat.add_comm, Nat.add_div_right _ hn]

theorem chunks_append (hn : 0 < n) {c : List α} (hc : c.length = n) (l : List α) :
    chunks n (c ++ l) = c :: chunks n l := by
  rw [chunks, length_append_div hn hc, List.range_succ_eq_map, List.map_cons, List.map_map, chunks]
  have htake : (c ++ l).take n = c := by rw [← hc, List.take_left]
  rw [Nat.zero_mul, List.drop_zero, htake]
  congr 1
  refine List.map_congr_left fun i _ => ?_
  have hdrop : (c ++ l).drop ((i + 1) * n) = l.drop (i * n) := by
    rw [Nat.succ_mul, Nat.add_comm, ← hc, List.drop_append]
    simp
  simp only [Function.comp_apply, Nat.succ_eq_add_one, hdrop]

theorem lastChunk_append (hn : 0 < n) {c : List α} (hc : c.length = n) (l : List α) :
    lastChunk n (c ++ l) = lastChunk n l := by
  rw [lastChunk, length_append_div hn hc, Nat.succ_mul, Nat.add_comm, lastChunk]
  nth_rewrite 1 [← hc]
  rw [List.drop_append]
  simp

theorem chunk_induction {motive : List α → Prop} (hn : 0 < n)
    (short : ∀ l, l.length < n → motive l)
    (block : ∀ c l, c.length = n → motive l → motive (c ++ l)) (l : List α) : motive l := by
  induction hk : l.length using Nat.strongRecOn generalizing l with
  | ind k ih =>
    by_cases hlt : l.length < n
    · exact short l hlt
    · have htake : (l.take n).length = n := List.length_take_of_le (Nat.le_of_not_lt hlt)
      rw [← List.take_append_drop n l]
      exact block _ _ htake (ih _ (by rw [List.length_drop]; omega) _ rfl)

theorem chunks_of_le (hn : 0 < n) (h : n ≤ l.length) :
    chunks n l = l.take n :: chunks n (l.drop n) ∧ lastChunk n l = lastChunk n (l.drop n) := by
  have hblock : (l.take n).length = n := List.length_take_of_le h
  have hchunks := chunks_append hn hblock (l.drop n)
  have hlast := lastChunk_append hn hblock (l.drop n)
  rw [List.take_append_drop] at hchunks hlast
  exact ⟨hchunks, hlast⟩

theorem length_lastChunk (l : List α) : (lastChunk n l).length = l.length % n := by
  rw [lastChunk, List.length_drop, Nat.mul_comm]
  exact (Nat.mod_eq_sub_mul_div).symm

theorem chunks_lastChunk (hn : 0 < n) (l l' : List α) :
    chunks n (l ++ l') = chunks n l ++ chunks n (lastChunk n l ++ l') ∧
      lastChunk n (l ++ l') = lastChunk n (lastChunk n l ++ l') := by
  induction l using chunk_induction hn with
  | short l hl =>
    rw [chunks_of_lt hl, lastChunk_of_lt hl]
    exact ⟨rfl, rfl⟩
  | block c l hc ih =>
    rw [List.append_assoc, chunks_append hn hc, chunks_append hn hc, lastChunk_append hn hc, lastChunk_append hn hc,
      ih.1, ih.2]
    exact ⟨rfl, rfl⟩

theorem length_flatten_blocks {cs : List (List α)} (h : ∀ c ∈ cs, c.length = n) :
    cs.flatten.length = n * cs.length := by
  induction cs with
  | nil => rfl
  | cons c cs ih =>
    obtain ⟨hc, hcs⟩ := List.forall_mem_cons.mp h
    rw [List.flatten_cons, List.length_append, hc, ih hcs, List.length_cons, Nat.mul_add, Nat.add_comm, Nat.mul_one]

theorem chunks_flatten (hn : 0 < n) {cs : List (List α)} (h : ∀ c ∈ cs, c.length = n) : chunks n cs.flatten = cs := by
  induction cs with
  | nil => exact chunks_of_lt hn
  | cons c cs ih =>
    obtain ⟨hc, hcs⟩ := List.forall_mem_cons.mp h
    rw [List.flatten_cons, chunks_append hn hc, ih hcs]

theorem exists_blocks (hn : 0 < n) (h : l.length % n = 0) :
    ∃ cs : List (List α), cs.flatten = l ∧ cs.length = l.length / n ∧ ∀ c ∈ cs, c.length = n := by
  induction l using chunk_induction hn with
  | short l hlt =>
    rw [Nat.mod_eq_of_lt hlt, List.length_eq_zero_iff] at h
    exact ⟨[], h.symm, (Nat.div_eq_of_lt hlt).symm, fun c hc => absurd hc List.not_mem_nil⟩
  | block c l hc ih =>
    rw [List.length_append, hc, Nat.add_mod_left] at h
    obtain ⟨cs, hflatten, hlength, hcs⟩ := ih h
    exact ⟨c :: cs, by rw [List.flatten_cons, hflatten], by rw [List.length_cons, hlength, length_append_div hn hc],
      List.forall_mem_cons.mpr ⟨hc, hcs⟩⟩

end

end ByteCodec
