import Velkavo.ByteCodec.Blocks
import Velkavo.ByteCodec.Words

/-! Keccak of a message, and of a message that comes in pieces. -/

namespace Velkavo.Crypto

open ByteCodec

abbrev KeccakState : Type := Fin 25 → UInt64

def hashDataArea : ℕ := 136

def keccakFinalized : ℕ := 0x80000000

def keccakBlocklen : ℕ := 136

def keccakWords : ℕ := 17

def keccakDigestsize : ℕ := 32

def xorWords (words : ℕ) (st : KeccakState) (block : Bytes) : KeccakState := fun i =>
  if i < words then st i ^^^ word block i else st i

def memcpySwap64le (st : KeccakState) (words : ℕ) : Bytes :=
  ((List.ofFn st).take words).flatMap fun w => littleEndian 8 w.toNat

def memcpyAt (buffer : Bytes) (place : ℕ) (src : Bytes) : Bytes :=
  buffer.take place ++ (src ++ buffer.drop (place + src.length))

section

variable (keccakf : KeccakState → KeccakState)

def absorbLoop (rsiz : ℕ) : ℕ → Bytes → KeccakState → Bytes × KeccakState
  | 0, input, st => (input, st)
  | fuel + 1, input, st =>
    if rsiz ≤ input.length then absorbLoop rsiz fuel (input.drop rsiz) (keccakf (xorWords (rsiz / 8) st input))
    else (input, st)

def padded (rsiz : ℕ) (input : Bytes) : Bytes :=
  (input ++ 1 :: List.replicate (rsiz - (input.length + 1)) 0).modify (rsiz - 1) (· ||| 0x80)

def keccak (input : Bytes) (mdlen : ℤ) : Option Bytes :=
  if mdlen ≤ 0 ∨ 100 ≤ mdlen ∧ mdlen ≠ 200 then none
  else
    let rsiz := if mdlen = 200 then hashDataArea else (200 - 2 * mdlen).toNat
    let (input, st) := absorbLoop keccakf rsiz input.length input fun _ => 0
    if 144 ≤ input.length + 1 ∨ rsiz < input.length ∨ 144 ≤ rsiz - input.length + input.length + 1 ∨ rsiz = 0 ∨
        144 ≤ rsiz - 1 ∨ 144 < rsiz / 8 * 8 then none
    else
      let st := keccakf (xorWords (rsiz / 8) st (padded rsiz input))
      if mdlen % 8 ≠ 0 then none else some (memcpySwap64le st (mdlen / 8).toNat)

structure KeccakCtx where
  hash : KeccakState
  message : Bytes
  rest : ℕ

def keccakInit : KeccakCtx := ⟨fun _ => 0, List.replicate keccakBlocklen 0, 0⟩

def keccakProcessBlock (st : KeccakState) (block : Bytes) : KeccakState := keccakf (xorWords keccakWords st block)

def updateLoop : ℕ → Bytes → KeccakCtx → Bytes × KeccakCtx
  | 0, input, ctx => (input, ctx)
  | fuel + 1, input, ctx =>
    if keccakBlocklen ≤ input.length then
      let message := memcpyAt ctx.message 0 (input.take keccakBlocklen)
      updateLoop fuel (input.drop keccakBlocklen)
        { ctx with hash := keccakProcessBlock keccakf ctx.hash message, message := message }
    else (input, ctx)

def updateBlocks (input : Bytes) (ctx : KeccakCtx) : KeccakCtx :=
  let (input, ctx) := updateLoop keccakf input.length input ctx
  if input.length ≠ 0 then { ctx with message := memcpyAt ctx.message 0 input } else ctx

def keccakUpdate (ctx : KeccakCtx) (input : Bytes) : Option KeccakCtx :=
  if ctx.rest &&& keccakFinalized ≠ 0 then none
  else
    let idx := ctx.rest
    let ctx := { ctx with rest := (ctx.rest + input.length) % keccakBlocklen }
    if idx ≠ 0 then
      let left := keccakBlocklen - idx
      let ctx := { ctx with message := memcpyAt ctx.message idx (input.take left) }
      if input.length < left then some ctx
      else some (updateBlocks keccakf (input.drop left) { ctx with hash := keccakProcessBlock keccakf ctx.hash ctx.message })
    else some (updateBlocks keccakf input ctx)

def keccakFinish (ctx : KeccakCtx) : KeccakCtx × Bytes :=
  let ctx : KeccakCtx :=
    if ctx.rest &&& keccakFinalized = 0 then
      let message := memcpyAt ctx.message ctx.rest (List.replicate (keccakBlocklen - ctx.rest) 0)
      let message := (message.modify ctx.rest (· ||| 0x01)).modify (keccakBlocklen - 1) (· ||| 0x80)
      ⟨keccakProcessBlock keccakf ctx.hash message, message, keccakFinalized⟩
    else ctx
  (ctx, memcpySwap64le ctx.hash (keccakDigestsize / 8))

end

section

variable {keccakf : KeccakState → KeccakState} {st : KeccakState} {ctx : KeccakCtx} {seen : Bytes}

theorem word_take {bs : Bytes} {i n : ℕ} (h : 8 * i + 8 ≤ n) : word (bs.take n) i = word bs i := by
  simp only [word, List.drop_take, List.take_take]
  rw [Nat.min_eq_left (by omega)]

theorem xorWords_take {words n : ℕ} (h : 8 * words ≤ n) (block : Bytes) :
    xorWords words st (block.take n) = xorWords words st block := by
  funext i
  simp only [xorWords]
  split_ifs with hi
  · rw [word_take (by omega)]
  · rfl

theorem memcpyAt_zero {buffer src : Bytes} (h : buffer.length = src.length) : memcpyAt buffer 0 src = src := by
  simp only [memcpyAt, List.take_zero, List.nil_append, Nat.zero_add, ← h, List.drop_length, List.append_nil]

theorem length_memcpyAt {buffer src : Bytes} {place : ℕ} (h : place + src.length ≤ buffer.length) :
    (memcpyAt buffer place src).length = buffer.length := by
  simp only [memcpyAt, List.length_append, List.length_take, List.length_drop]
  omega

theorem take_memcpyAt {buffer : Bytes} {place : ℕ} (src : Bytes) (h : place ≤ buffer.length) :
    (memcpyAt buffer place src).take (place + src.length) = buffer.take place ++ src := by
  have hlength : place + src.length = (buffer.take place ++ src).length := by
    simp only [List.length_append, List.length_take]
    omega
  rw [memcpyAt, ← List.append_assoc, hlength, List.take_left]

theorem absorbLoop_eq (fuel : ℕ) (input : Bytes) (st : KeccakState) (hfuel : input.length ≤ fuel) :
    absorbLoop keccakf 136 fuel input st =
      (lastChunk 136 input, (chunks 136 input).foldl (keccakProcessBlock keccakf) st) := by
  induction fuel generalizing input st with
  | zero =>
    rw [chunks_of_lt (by omega), lastChunk_of_lt (by omega)]
    rfl
  | succ fuel ih =>
    rw [absorbLoop]
    split_ifs with hfull
    · obtain ⟨hchunks, hlast⟩ := chunks_of_le (by decide) hfull
      rw [ih _ _ (by rw [List.length_drop]; omega), hchunks, hlast, List.foldl_cons, keccakProcessBlock,
        xorWords_take (by decide)]
      rfl
    · rw [chunks_of_lt (by omega), lastChunk_of_lt (by omega)]
      rfl

theorem updateLoop_eq (keccakf : KeccakState → KeccakState) (fuel : ℕ) (input : Bytes) (ctx : KeccakCtx) (hfuel : input.length ≤ fuel)
    (hsize : ctx.message.length = 136) :
    ∃ message, message.length = 136 ∧ updateLoop keccakf fuel input ctx =
      (lastChunk 136 input,
        ⟨(chunks 136 input).foldl (keccakProcessBlock keccakf) ctx.hash, message, ctx.rest⟩) := by
  induction fuel generalizing input ctx with
  | zero =>
    refine ⟨ctx.message, hsize, ?_⟩
    rw [chunks_of_lt (by omega), lastChunk_of_lt (by omega)]
    rfl
  | succ fuel ih =>
    rw [updateLoop, keccakBlocklen]
    split_ifs with hfull
    · obtain ⟨hchunks, hlast⟩ := chunks_of_le (by decide) hfull
      have hblock : (input.take 136).length = 136 := List.length_take_of_le hfull
      have hmessage : memcpyAt ctx.message 0 (input.take 136) = input.take 136 := memcpyAt_zero (hsize.trans hblock.symm)
      simp only [hmessage]
      obtain ⟨message, hlength, hloop⟩ := ih (input.drop 136)
        { ctx with hash := keccakProcessBlock keccakf ctx.hash (input.take 136), message := input.take 136 }
        (by rw [List.length_drop]; omega) hblock
      refine ⟨message, hlength, hloop.trans ?_⟩
      rw [hchunks, hlast, List.foldl_cons]
    · refine ⟨ctx.message, hsize, ?_⟩
      rw [chunks_of_lt (by omega), lastChunk_of_lt (by omega)]
      rfl

structure Absorbed (keccakf : KeccakState → KeccakState) (ctx : KeccakCtx) (seen : Bytes) : Prop where
  hash : ctx.hash = (chunks 136 seen).foldl (keccakProcessBlock keccakf) fun _ => 0
  size : ctx.message.length = 136
  rest : ctx.rest = seen.length % 136
  kept : ctx.message.take ctx.rest = lastChunk 136 seen

theorem Absorbed.not_finalized (h : Absorbed keccakf ctx seen) : ctx.rest &&& keccakFinalized = 0 := by
  have hlt : ctx.rest < 2 ^ 31 := by
    rw [h.rest]
    exact (Nat.mod_lt _ (by decide)).trans (by decide)
  apply Nat.eq_of_testBit_eq
  intro i
  have hflag : keccakFinalized = 2 ^ 31 := rfl
  rw [hflag, Nat.testBit_and, Nat.zero_testBit, Nat.testBit_two_pow]
  by_cases hi : 31 = i
  · rw [← hi, Nat.testBit_lt_two_pow hlt, Bool.false_and]
  · simp [hi]

theorem absorbed_updateBlocks {ctx : KeccakCtx} {seen input : Bytes} (hsize : ctx.message.length = 136)
    (hhash : (chunks 136 input).foldl (keccakProcessBlock keccakf) ctx.hash =
      (chunks 136 seen).foldl (keccakProcessBlock keccakf) fun _ => 0)
    (hrest : ctx.rest = seen.length % 136) (hlast : lastChunk 136 input = lastChunk 136 seen) :
    Absorbed keccakf (updateBlocks keccakf input ctx) seen := by
  obtain ⟨message, hlength, hloop⟩ := updateLoop_eq keccakf input.length input ctx le_rfl hsize
  have hshort : (lastChunk 136 seen).length = ctx.rest := by rw [length_lastChunk, hrest]
  have hlt : ctx.rest < 136 := hrest ▸ Nat.mod_lt _ (by decide)
  simp only [updateBlocks, hloop]
  split_ifs with hempty
  · have hplace : 0 + (lastChunk 136 input).length ≤ message.length := by
      rw [hlast, hshort, hlength]
      omega
    refine ⟨hhash, (length_memcpyAt hplace).trans hlength, hrest, ?_⟩
    have htake := take_memcpyAt (lastChunk 136 input) (Nat.zero_le message.length)
    rw [List.take_zero, List.nil_append, Nat.zero_add, hlast, hshort] at htake
    rw [hlast]
    exact htake
  · rw [hlast, hshort, not_not] at hempty
    refine ⟨hhash, hlength, hrest, ?_⟩
    rw [List.eq_nil_of_length_eq_zero (hshort.trans hempty), hempty, List.take_zero]

theorem Absorbed.update (h : Absorbed keccakf ctx seen) (input : Bytes) :
    ∃ ctx', keccakUpdate keccakf ctx input = some ctx' ∧ Absorbed keccakf ctx' (seen ++ input) := by
  have hshort : (lastChunk 136 seen).length = ctx.rest := by rw [length_lastChunk, h.rest]
  have hlt : ctx.rest < 136 := h.rest ▸ Nat.mod_lt _ (by decide)
  obtain ⟨hchunks, hlast⟩ := chunks_lastChunk (show 0 < 136 by decide) seen input
  have hrest : (ctx.rest + input.length) % 136 = (seen ++ input).length % 136 := by
    rw [h.rest, List.length_append, Nat.mod_add_mod]
  rw [keccakUpdate, if_neg (not_not.mpr h.not_finalized), keccakBlocklen]
  dsimp only
  by_cases hidx : ctx.rest = 0
  · have hnone : lastChunk 136 seen = [] := List.eq_nil_of_length_eq_zero (hshort.trans hidx)
    rw [hnone, List.nil_append] at hchunks hlast
    rw [if_neg (not_not.mpr hidx)]
    refine ⟨_, rfl, ?_⟩
    refine absorbed_updateBlocks (by exact h.size) ?_ (by exact hrest) hlast.symm
    rw [hchunks, List.foldl_append, ← h.hash]
  rw [if_pos hidx]
  by_cases hfill : input.length < 136 - ctx.rest
  · -- the piece does not fill the partial block
    rw [if_pos hfill]
    have htake : input.take (136 - ctx.rest) = input := List.take_of_length_le (by omega)
    have hjoined : (lastChunk 136 seen ++ input).length < 136 := by
      rw [List.length_append, hshort]
      omega
    refine ⟨_, rfl, ?_⟩
    refine ⟨?_, ?_, hrest, ?_⟩
    · rw [hchunks, chunks_of_lt hjoined, List.append_nil]
      exact h.hash
    · rw [htake]
      exact (length_memcpyAt (by rw [h.size]; omega)).trans h.size
    · have hsum : (ctx.rest + input.length) % 136 = ctx.rest + input.length := Nat.mod_eq_of_lt (by omega)
      rw [hlast, lastChunk_of_lt hjoined, ← h.kept, hsum, htake]
      exact take_memcpyAt _ (by rw [h.size]; omega)
  · -- it does, and the block is processed
    rw [if_neg hfill]
    have hblock : (lastChunk 136 seen ++ input.take (136 - ctx.rest)).length = 136 := by
      rw [List.length_append, hshort, List.length_take_of_le (by omega)]
      omega
    have hmessage : memcpyAt ctx.message ctx.rest (input.take (136 - ctx.rest)) =
        lastChunk 136 seen ++ input.take (136 - ctx.rest) := by
      have hend : ctx.rest + (input.take (136 - ctx.rest)).length = ctx.message.length := by
        rw [List.length_take_of_le (by omega), h.size]
        omega
      rw [memcpyAt, hend, List.drop_length, List.append_nil, h.kept]
    have hjoined : lastChunk 136 seen ++ input =
        (lastChunk 136 seen ++ input.take (136 - ctx.rest)) ++ input.drop (136 - ctx.rest) := by
      rw [List.append_assoc, List.take_append_drop]
    refine ⟨_, rfl, ?_⟩
    refine absorbed_updateBlocks ?_ ?_ (by exact hrest) ?_
    · rw [hmessage, hblock]
    · rw [hchunks, hjoined, chunks_append (by decide) hblock, List.foldl_append, List.foldl_cons, ← h.hash, hmessage]
    · rw [hlast, hjoined, lastChunk_append (by decide) hblock]

theorem Absorbed.foldlM (h : Absorbed keccakf ctx seen) (pieces : List Bytes) :
    ∃ ctx', pieces.foldlM (keccakUpdate keccakf) ctx = some ctx' ∧ Absorbed keccakf ctx' (seen ++ pieces.flatten) := by
  induction pieces generalizing ctx seen with
  | nil => exact ⟨ctx, rfl, by rwa [List.flatten_nil, List.append_nil]⟩
  | cons piece pieces ih =>
    obtain ⟨ctx₁, hupdate, h₁⟩ := h.update piece
    obtain ⟨ctx₂, hrun, h₂⟩ := ih h₁
    refine ⟨ctx₂, ?_, by rwa [List.flatten_cons, ← List.append_assoc]⟩
    rw [List.foldlM_cons, hupdate]
    exact hrun

theorem absorbed_init (keccakf : KeccakState → KeccakState) : Absorbed keccakf keccakInit [] where
  hash := by
    rw [chunks_of_lt (by decide)]
    rfl
  size := List.length_replicate
  rest := rfl
  kept := rfl

theorem Absorbed.finish (h : Absorbed keccakf ctx seen) :
    (keccakFinish keccakf ctx).2 = memcpySwap64le (keccakProcessBlock keccakf
      ((chunks 136 seen).foldl (keccakProcessBlock keccakf) fun _ => 0) (padded 136 (lastChunk 136 seen))) 4 := by
  have hshort : (lastChunk 136 seen).length = ctx.rest := by rw [length_lastChunk, h.rest]
  have hlt : ctx.rest < 136 := h.rest ▸ Nat.mod_lt _ (by decide)
  have hend : ctx.rest + (List.replicate (136 - ctx.rest) (0 : UInt8)).length = ctx.message.length := by
    rw [List.length_replicate, h.size]
    omega
  have hzeros : List.replicate (136 - ctx.rest) (0 : UInt8) = 0 :: List.replicate (136 - (ctx.rest + 1)) 0 := by
    rw [← List.replicate_succ]
    congr 1
    omega
  have hmessage : (memcpyAt ctx.message ctx.rest (List.replicate (136 - ctx.rest) 0)).modify ctx.rest (· ||| 0x01) =
      lastChunk 136 seen ++ 1 :: List.replicate (136 - ((lastChunk 136 seen).length + 1)) 0 := by
    rw [memcpyAt, hend, List.drop_length, List.append_nil, h.kept, hzeros, ← hshort, List.modify_eq_take_drop,
      List.take_left, List.drop_left]
    rfl
  rw [keccakFinish, if_pos h.not_finalized]
  simp only [keccakBlocklen, hmessage, h.hash]
  rfl

end

theorem keccak_eq (keccakf : KeccakState → KeccakState) (input : Bytes) :
    keccak keccakf input 32 = some (memcpySwap64le (keccakProcessBlock keccakf
      ((chunks 136 input).foldl (keccakProcessBlock keccakf) fun _ => 0) (padded 136 (lastChunk 136 input))) 4) := by
  have hshort : (lastChunk 136 input).length < 136 := by
    rw [length_lastChunk]
    exact Nat.mod_lt _ (by decide)
  have hrsiz : (if (32 : ℤ) = 200 then hashDataArea else (200 - 2 * 32 : ℤ).toNat) = 136 := rfl
  rw [keccak, if_neg (by decide)]
  simp only [hrsiz, absorbLoop_eq _ _ _ le_rfl]
  rw [if_neg (by omega)]
  rfl

theorem keccak_incremental (keccakf : KeccakState → KeccakState) (pieces : List Bytes) :
    ∃ digest, digest.length = 32 ∧ keccak keccakf pieces.flatten 32 = some digest ∧
      (pieces.foldlM (keccakUpdate keccakf) keccakInit).map (fun ctx => (keccakFinish keccakf ctx).2) = some digest := by
  obtain ⟨ctx, hrun, h⟩ := (absorbed_init keccakf).foldlM pieces
  refine ⟨_, ?_, keccak_eq keccakf pieces.flatten, ?_⟩
  · simp only [memcpySwap64le, List.length_flatMap, littleEndian_length, List.map_const', List.sum_replicate,
      List.length_take, List.length_ofFn]
    rfl
  · rw [hrun, Option.map_some, h.finish, List.nil_append]

end Velkavo.Crypto
