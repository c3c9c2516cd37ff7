import Mathlib.Data.List.GetD
import Mathlib.Data.Nat.Pairing
import Mathlib.Data.UInt
import Mathlib.Tactic.Ring

/-! The tree of the hashes of a block, and the branch from one of them to the root. -/

namespace Velkavo.Crypto

variable {Hash : Type}

def raisePow (count : ℕ) : ℕ → ℕ → ℕ
  | 0, pow => pow
  | fuel + 1, pow => if pow < count then raisePow count fuel (pow <<< 1) else pow

def treeHashCnt (count : ℕ) : Option ℕ :=
  if 3 ≤ count ∧ count ≤ 0x10000000 then some (raisePow count 64 2 >>> 1) else none

section

variable {State : Type} (step : State → ℕ → ℕ → State)

def pairLoop (first n : ℕ) (s : State) : State :=
  (List.range n).foldl (fun s k => step s (first + 2 * k) (first + k)) s

def halvingLoop : ℕ → ℕ → State → State
  | 0, _, s => s
  | fuel + 1, cnt, s => if cnt > 2 then halvingLoop fuel (cnt >>> 1) (pairLoop step 0 (cnt >>> 1) s) else s

def foldTree (leafStep step : State → ℕ → ℕ → State) (count cnt : ℕ) (s : State) : State :=
  halvingLoop step cnt cnt (pairLoop leafStep (2 * cnt - count) (cnt - (2 * cnt - count)) s)

end

section

variable [Inhabited Hash] (cnFastHash : Hash × Hash → Hash)

def hashAt (hashes : List Hash) (i : ℕ) : Hash := hashes.getD i default

def hashStep (src ints : ℕ → Hash) (i j : ℕ) : ℕ → Hash := Function.update ints j (cnFastHash (src i, src (i + 1)))

def copied (hashes : List Hash) (n : ℕ) (i : ℕ) : Hash := if i < n then hashAt hashes i else default

def treeHash (hashes : List Hash) : Option Hash :=
  match hashes.length with
  | 0 => none
  | 1 => some (hashAt hashes 0)
  | 2 => some (cnFastHash (hashAt hashes 0, hashAt hashes 1))
  | count => (treeHashCnt count).map fun cnt =>
    let ints := foldTree (hashStep cnFastHash (hashAt hashes)) (fun ints => hashStep cnFastHash ints ints) count cnt
      (copied hashes (2 * cnt - count))
    cnFastHash (ints 0, ints 1)

end

structure Walk where
  idx : ℕ
  path : UInt32

namespace Walk

def Meets (w : Walk) (i : ℕ) : Prop := w.idx = i ∨ w.idx = i + 1

instance decidableMeets (w : Walk) (i : ℕ) : Decidable (w.Meets i) := by unfold Meets; infer_instance

def turn (w : Walk) (i : ℕ) : UInt32 := if w.idx = i then 0 else 1

def meet (w : Walk) (i j : ℕ) : Walk := if w.Meets i then ⟨j, (w.path <<< 1) ||| w.turn i⟩ else w

end Walk

def treePath (count idx : ℕ) : Option (Option UInt32) :=
  match count with
  | 0 => some none
  | 1 => some (some 0)
  | 2 => some (some (if idx = 0 then 0 else 1))
  | count => (treeHashCnt count).map fun cnt =>
    let w := foldTree Walk.meet Walk.meet count cnt ⟨idx, 0⟩
    some (w.meet 0 0).path

section

variable [Inhabited Hash] [DecidableEq Hash] (cnFastHash : Hash × Hash → Hash)

structure BranchState (Hash : Type) where
  ints : ℕ → Hash
  branch : List Hash
  walk : Walk

namespace BranchState

def collect (s : BranchState Hash) (src : ℕ → Hash) (i j : ℕ) : BranchState Hash :=
  { s with
    branch := if s.walk.Meets i then s.branch ++ [src (if s.walk.idx = i then i + 1 else i)] else s.branch
    walk := s.walk.meet i j }

def step (src : ℕ → Hash) (s : BranchState Hash) (i j : ℕ) : BranchState Hash :=
  { s.collect src i j with ints := hashStep cnFastHash src s.ints i j }

end BranchState

def treeBranch (hashes : List Hash) (hash : Hash) : Option (Option (List Hash × ℕ × UInt32)) :=
  let idx := hashes.idxOf hash
  if idx = hashes.length then some none
  else
    match hashes.length with
    | 0 => some none
    | 1 => some (some ([], 0, 0))
    | 2 => some (some ([hashAt hashes (idx ^^^ 1)], 1, if idx = 0 then 0 else 1))
    | count => (treeHashCnt count).map fun cnt =>
      let s := foldTree (BranchState.step cnFastHash (hashAt hashes)) (fun s => BranchState.step cnFastHash s.ints s)
        count cnt ⟨copied hashes (2 * cnt - count), [], ⟨idx, 0⟩⟩
      let s := s.collect s.ints 0 0
      some (s.branch, s.branch.length, s.walk.path)

def branchBuffer (branch : List Hash) (depth : ℕ) (path : UInt32) (part : Hash) (d : ℕ) : Hash × Hash :=
  if (path >>> UInt32.ofNat (depth - d - 1)) &&& 1 ≠ 0 then (hashAt branch d, part) else (part, hashAt branch d)

def partialHash (hash : Hash) (branch : List Hash) (depth : ℕ) (path : UInt32) : ℕ → Hash
  | 0 => hash
  | d + 1 => cnFastHash (branchBuffer branch depth path (partialHash hash branch depth path d) d)

def treeBranchHash (hash : Hash) (branch : List Hash) (depth : ℕ) (path : UInt32) : Hash :=
  partialHash cnFastHash hash branch depth path depth

def isBranchInTree (hash root : Hash) (branch : List Hash) (depth : ℕ) (path : UInt32) : Bool :=
  treeBranchHash cnFastHash hash branch depth path = root

end

section

theorem raisePow_spec (count fuel a : ℕ) (hlow : 2 ^ a < 2 * count) (hhigh : count ≤ 2 ^ (a + fuel)) :
    ∃ b, raisePow count fuel (2 ^ a) = 2 ^ b ∧ 2 ^ b < 2 * count ∧ count ≤ 2 ^ b := by
  induction fuel generalizing a with
  | zero => exact ⟨a, rfl, hlow, hhigh⟩
  | succ fuel ih =>
    rw [raisePow]
    split_ifs with hlt
    · rw [Nat.shiftLeft_eq, pow_one, ← pow_succ]
      refine ih (a + 1) ?_ ?_
      · rw [pow_succ]
        omega
      · rwa [Nat.add_right_comm]
    · exact ⟨a, rfl, hlow, not_lt.mp hlt⟩

theorem treeHashCnt_spec {count : ℕ} (hlow : 3 ≤ count) (hhigh : count ≤ 2 ^ 28) :
    ∃ m, treeHashCnt count = some (2 ^ (m + 1)) ∧ m ≤ 26 ∧ 2 ^ (m + 1) < count ∧ count ≤ 2 * 2 ^ (m + 1) := by
  obtain ⟨b, hb, hlt, hle⟩ := raisePow_spec count 64 1 (by omega) (by omega)
  have hone : 1 < b := by
    by_contra hsmall
    have := Nat.pow_le_pow_right (show 0 < 2 by decide) (not_lt.mp hsmall)
    omega
  obtain ⟨m, rfl⟩ := Nat.exists_eq_add_of_lt hone
  have hpow : 2 ^ (1 + m + 1) = 2 * 2 ^ (m + 1) := by ring
  refine ⟨m, ?_, ?_, by omega, by omega⟩
  · rw [treeHashCnt, if_pos ⟨hlow, hhigh⟩, Option.some.injEq]
    rw [pow_one] at hb
    rw [hb, Nat.shiftRight_eq_div_pow, hpow, pow_one, Nat.mul_div_cancel_left _ (by decide)]
  · by_contra hbig
    have := Nat.pow_le_pow_right (show 0 < 2 by decide) (show 28 ≤ m + 1 by omega)
    omega

end

section

variable {State State' : Type} {step leafStep : State → ℕ → ℕ → State} {step' leafStep' : State' → ℕ → ℕ → State'}
  (f : State → State')

theorem pairLoop_succ (first n : ℕ) (s : State) :
    pairLoop step first (n + 1) s = step (pairLoop step first n s) (first + 2 * n) (first + n) := by
  rw [pairLoop, List.range_succ, List.foldl_append]
  rfl

theorem map_pairLoop (h : ∀ s i j, f (step s i j) = step' (f s) i j) (first n : ℕ) (s : State) :
    f (pairLoop step first n s) = pairLoop step' first n (f s) := by
  induction n with
  | zero => rfl
  | succ n ih => rw [pairLoop_succ, pairLoop_succ, h, ih]

theorem map_halvingLoop (h : ∀ s i j, f (step s i j) = step' (f s) i j) (fuel cnt : ℕ) (s : State) :
    f (halvingLoop step fuel cnt s) = halvingLoop step' fuel cnt (f s) := by
  induction fuel generalizing cnt s with
  | zero => rfl
  | succ fuel ih =>
    rw [halvingLoop, halvingLoop]
    split_ifs
    · rw [ih, map_pairLoop f h]
    · rfl

theorem map_foldTree (hleaf : ∀ s i j, f (leafStep s i j) = leafStep' (f s) i j)
    (h : ∀ s i j, f (step s i j) = step' (f s) i j) (count cnt : ℕ) (s : State) :
    f (foldTree leafStep step count cnt s) = foldTree leafStep' step' count cnt (f s) := by
  rw [foldTree, foldTree, map_halvingLoop f h, map_pairLoop f hleaf]

end

section

variable {cnFastHash : Hash × Hash → Hash} {src : ℕ → Hash} {s : BranchState Hash} {first n k : ℕ}

open BranchState

variable (cnFastHash src) in
theorem pairLoop_ints (s : BranchState Hash) (first n x : ℕ) :
    (pairLoop (step cnFastHash src) first n s).ints x =
      if first ≤ x ∧ x < first + n then cnFastHash (src (first + 2 * (x - first)), src (first + 2 * (x - first) + 1))
      else s.ints x := by
  induction n with
  | zero => rw [if_neg (by omega)]; rfl
  | succ n ih =>
    rw [pairLoop_succ]
    change Function.update (pairLoop (step cnFastHash src) first n s).ints (first + n) _ x = _
    by_cases hx : x = first + n
    · rw [hx, Function.update_self, if_pos (by omega), Nat.add_sub_cancel_left]
    · rw [Function.update_of_ne hx, ih]
      split_ifs <;> first | rfl | omega

theorem collect_unmet {i : ℕ} (h : ¬ s.walk.Meets i) (j : ℕ) : s.collect src i j = s := by
  rw [collect, if_neg h, Walk.meet, if_neg h]

theorem walk_collect {i : ℕ} (h : s.walk.Meets i) (j : ℕ) :
    (s.collect src i j).walk = ⟨j, (s.walk.path <<< 1) ||| s.walk.turn i⟩ := if_pos h

theorem branch_collect {i : ℕ} (h : s.walk.Meets i) (j : ℕ) :
    (s.collect src i j).branch = s.branch ++ [src (if s.walk.idx = i then i + 1 else i)] := if_pos h

variable (cnFastHash src) in
theorem pairLoop_unmet (h : ∀ k < n, ¬ s.walk.Meets (first + 2 * k)) :
    (pairLoop (step cnFastHash src) first n s).walk = s.walk ∧
      (pairLoop (step cnFastHash src) first n s).branch = s.branch := by
  induction n with
  | zero => exact ⟨rfl, rfl⟩
  | succ n ih =>
    obtain ⟨hwalk, hbranch⟩ := ih fun k hk => h k (by omega)
    rw [pairLoop_succ, step, collect_unmet (by rw [hwalk]; exact h n (by omega))]
    exact ⟨hwalk, hbranch⟩

variable (cnFastHash src) in
theorem pairLoop_met (hk : k < n) (h : s.walk.Meets (first + 2 * k)) :
    (pairLoop (step cnFastHash src) first n s).walk = (s.collect src (first + 2 * k) (first + k)).walk ∧
      (pairLoop (step cnFastHash src) first n s).branch = (s.collect src (first + 2 * k) (first + k)).branch := by
  induction n with
  | zero => omega
  | succ n ih =>
    rw [pairLoop_succ, step]
    by_cases hlast : k = n
    · have hunmet : ∀ k' < n, ¬ s.walk.Meets (first + 2 * k') := fun k' hk' hmeets => by
        rw [Walk.Meets] at h hmeets
        omega
      obtain ⟨hwalk, hbranch⟩ := pairLoop_unmet cnFastHash src hunmet
      simp only [collect, hwalk, hbranch, hlast]
      exact ⟨trivial, trivial⟩
    · obtain ⟨hwalk, hbranch⟩ := ih (by omega)
      rw [collect_unmet]
      · exact ⟨hwalk, hbranch⟩
      · rw [hwalk, walk_collect h, Walk.Meets]
        change ¬ (first + k = first + 2 * n ∨ first + k = first + 2 * n + 1)
        omega

theorem step_congr {src' : ℕ → Hash} {i j : ℕ} (h : src i = src' i) (h' : src (i + 1) = src' (i + 1)) :
    step cnFastHash src s i j = step cnFastHash src' s i j := by
  have hsibling : src (if s.walk.idx = i then i + 1 else i) = src' (if s.walk.idx = i then i + 1 else i) := by
    split_ifs
    · exact h'
    · exact h
  rw [step, step, collect, collect, hashStep, hashStep, hsibling, h, h']

theorem pairLoop_in_place :
    pairLoop (fun s => step cnFastHash s.ints s) 0 n s = pairLoop (step cnFastHash s.ints) 0 n s := by
  induction n with
  | zero => rfl
  | succ n ih =>
    have hread : ∀ x, n ≤ x → (pairLoop (step cnFastHash s.ints) 0 n s).ints x = s.ints x := fun x hx => by
      rw [pairLoop_ints, if_neg (by omega)]
    rw [pairLoop_succ, pairLoop_succ, ih]
    exact step_congr (hread _ (by omega)) (hread _ (by omega))

end

section

variable [Inhabited Hash] {cnFastHash : Hash × Hash → Hash} {hash hash' : Hash} {branch branch' : List Hash}
  {depth : ℕ} {path : UInt32}

theorem toNat_turned {p b : UInt32} (hp : p.toNat < 2 ^ 31) (hb : b.toNat < 2) :
    ((p <<< 1) ||| b).toNat = 2 * p.toNat + b.toNat := by
  have hone : (1 : UInt32).toNat % 32 = 1 := rfl
  have hshift : (p <<< 1).toNat = p.toNat <<< 1 := by
    rw [UInt32.toNat_shiftLeft, hone, Nat.shiftLeft_eq, pow_one]
    exact Nat.mod_eq_of_lt (by omega)
  rw [UInt32.toNat_or, hshift, ← Nat.shiftLeft_add_eq_or_of_lt (by simpa using hb), Nat.shiftLeft_eq, pow_one,
    Nat.mul_comm]

theorem bit_iff {p : UInt32} {k : ℕ} (hk : k < 32) :
    (p >>> UInt32.ofNat k) &&& 1 ≠ 0 ↔ p.toNat / 2 ^ k % 2 = 1 := by
  have hone : (1 : UInt32).toNat = 1 := rfl
  have hzero : (0 : UInt32).toNat = 0 := rfl
  have hk' : (UInt32.ofNat k).toNat % 32 = k := by
    rw [UInt32.toNat_ofNat_of_lt' (hk.trans (by decide)), Nat.mod_eq_of_lt hk]
  rw [Ne, ← UInt32.toNat_inj, UInt32.toNat_and, UInt32.toNat_shiftRight, hk', hone, hzero, Nat.shiftRight_eq_div_pow,
    Nat.and_one_is_mod]
  omega

theorem partialHash_concat {x : Hash} {b : UInt32} (hlen : branch.length = depth) (hdepth : depth ≤ 30)
    (hpath : path.toNat < 2 ^ 31) (hb : b.toNat < 2) {d : ℕ} (hd : d ≤ depth) :
    partialHash cnFastHash hash (branch ++ [x]) (depth + 1) ((path <<< 1) ||| b) d =
      partialHash cnFastHash hash branch depth path d := by
  induction d with
  | zero => rfl
  | succ d ih =>
    have hat : hashAt (branch ++ [x]) d = hashAt branch d := by
      rw [hashAt, hashAt, List.getD_append _ _ _ _ (by omega)]
    have hbit : (((path <<< 1) ||| b) >>> UInt32.ofNat (depth + 1 - d - 1)) &&& 1 ≠ 0 ↔
        (path >>> UInt32.ofNat (depth - d - 1)) &&& 1 ≠ 0 := by
      rw [bit_iff (by omega), bit_iff (by omega), toNat_turned hpath hb,
        show depth + 1 - d - 1 = (depth - d - 1) + 1 by omega, pow_succ', ← Nat.div_div_eq_div_mul]
      have hhalf : (2 * path.toNat + b.toNat) / 2 = path.toNat := by omega
      rw [hhalf]
    rw [partialHash, partialHash, ih (by omega), branchBuffer, branchBuffer, hat]
    simp only [hbit]

theorem treeBranchHash_concat {x : Hash} {b : UInt32} (hlen : branch.length = depth) (hdepth : depth ≤ 30)
    (hpath : path.toNat < 2 ^ 31) (hb : b.toNat < 2) :
    treeBranchHash cnFastHash hash (branch ++ [x]) (depth + 1) ((path <<< 1) ||| b) =
      if b.toNat = 1 then cnFastHash (x, treeBranchHash cnFastHash hash branch depth path)
      else cnFastHash (treeBranchHash cnFastHash hash branch depth path, x) := by
  have hat : hashAt (branch ++ [x]) depth = x := by
    rw [hashAt, ← hlen, List.getD_append_right _ _ _ _ (Nat.le_refl _), Nat.sub_self]
    rfl
  rw [treeBranchHash, partialHash, partialHash_concat hlen hdepth hpath hb (Nat.le_refl depth), ← treeBranchHash,
    branchBuffer, hat]
  have hbit : (((path <<< 1) ||| b) >>> UInt32.ofNat (depth + 1 - depth - 1)) &&& 1 ≠ 0 ↔ b.toNat = 1 := by
    rw [bit_iff (by omega), toNat_turned hpath hb, show depth + 1 - depth - 1 = 0 by omega, pow_zero, Nat.div_one]
    omega
  simp only [hbit]
  split_ifs <;> rfl

theorem eq_of_treeBranchHash_eq {pairs : Set (Hash × Hash)} (hfree : Set.InjOn cnFastHash pairs)
    (hpairs : ∀ d < depth, branchBuffer branch depth path (partialHash cnFastHash hash branch depth path d) d ∈ pairs)
    (hpairs' : ∀ d < depth,
      branchBuffer branch' depth path (partialHash cnFastHash hash' branch' depth path d) d ∈ pairs)
    (h : treeBranchHash cnFastHash hash branch depth path = treeBranchHash cnFastHash hash' branch' depth path) :
    hash = hash' := by
  have hdown : ∀ d ≤ depth, partialHash cnFastHash hash branch depth path d =
      partialHash cnFastHash hash' branch' depth path d → hash = hash' := by
    intro d hd
    induction d with
    | zero => exact id
    | succ d ih =>
      intro heq
      refine ih (by omega) ?_
      have hbuffer := hfree (hpairs d (by omega)) (hpairs' d (by omega)) heq
      rw [branchBuffer, branchBuffer] at hbuffer
      split_ifs at hbuffer
      · exact (Prod.mk.inj hbuffer).2
      · exact (Prod.mk.inj hbuffer).1
  exact hdown depth (Nat.le_refl depth) h

end

section

variable [Inhabited Hash] {cnFastHash : Hash × Hash → Hash} {hash : Hash} {s : BranchState Hash} {src : ℕ → Hash}

open BranchState

structure Reached (cnFastHash : Hash × Hash → Hash) (hash : Hash) (m : ℕ) (s : BranchState Hash) : Prop where
  idx_lt : s.walk.idx < 2 ^ m
  short : s.branch.length + m ≤ 28
  path_lt : s.walk.path.toNat < 2 ^ s.branch.length
  hash_eq : treeBranchHash cnFastHash hash s.branch s.branch.length s.walk.path = s.ints s.walk.idx

theorem toNat_turn (w : Walk) (i : ℕ) : (w.turn i).toNat = if w.idx = i then 0 else 1 := by
  rw [Walk.turn]
  split_ifs <;> rfl

theorem treeBranchHash_collect {i : ℕ} (hmeets : s.walk.Meets i) (hshort : s.branch.length ≤ 28)
    (hpath : s.walk.path.toNat < 2 ^ s.branch.length)
    (h : treeBranchHash cnFastHash hash s.branch s.branch.length s.walk.path = src s.walk.idx) (j : ℕ) :
    (s.collect src i j).branch.length = s.branch.length + 1 ∧
      (s.collect src i j).walk.path.toNat < 2 ^ (s.branch.length + 1) ∧
      treeBranchHash cnFastHash hash (s.collect src i j).branch (s.branch.length + 1) (s.collect src i j).walk.path =
        cnFastHash (src i, src (i + 1)) := by
  have hturn := toNat_turn s.walk i
  have hbit : (s.walk.turn i).toNat < 2 := by
    rw [hturn]
    split_ifs <;> decide
  have hsmall : s.walk.path.toNat < 2 ^ 31 :=
    hpath.trans_le (Nat.pow_le_pow_right (by decide) (by omega))
  rw [branch_collect hmeets, walk_collect hmeets]
  refine ⟨by simp, ?_, ?_⟩
  · rw [toNat_turned hsmall hbit, pow_succ]
    omega
  · rw [treeBranchHash_concat rfl (by omega) hsmall hbit, h, hturn]
    rcases hmeets with hidx | hidx
    · rw [if_pos hidx, if_neg (by decide), if_pos hidx, hidx]
    · have hne : s.walk.idx ≠ i := by omega
      rw [if_neg hne, if_pos rfl, if_neg hne, hidx]

theorem Reached.pairLoop {m : ℕ} (h : Reached cnFastHash hash (m + 1) s) :
    Reached cnFastHash hash m (pairLoop (fun s => step cnFastHash s.ints s) 0 (2 ^ m) s) := by
  have hshort := h.short
  have hidx := h.idx_lt
  rw [pow_succ] at hidx
  have hmeets : s.walk.Meets (0 + 2 * (s.walk.idx / 2)) := by
    rw [Walk.Meets]
    omega
  obtain ⟨hwalk, hbranch⟩ := pairLoop_met cnFastHash s.ints
    (show s.walk.idx / 2 < 2 ^ m by omega) hmeets
  obtain ⟨hlen, hpath, hhash⟩ := treeBranchHash_collect hmeets (by omega) h.path_lt h.hash_eq (0 + s.walk.idx / 2)
  rw [pairLoop_in_place]
  refine ⟨?_, ?_, ?_, ?_⟩
  · rw [hwalk, walk_collect hmeets]
    change 0 + s.walk.idx / 2 < 2 ^ m
    omega
  · rw [hbranch, hlen]
    omega
  · rw [hwalk, hbranch, hlen]
    exact hpath
  · have hint := pairLoop_ints cnFastHash s.ints s 0 (2 ^ m) (0 + s.walk.idx / 2)
    rw [if_pos (by omega), Nat.sub_zero, Nat.zero_add (s.walk.idx / 2)] at hint
    rw [hwalk, hbranch, hlen, hhash, walk_collect hmeets, Nat.zero_add (s.walk.idx / 2)]
    exact hint.symm

theorem Reached.halvingLoop {m : ℕ} (fuel : ℕ) (h : Reached cnFastHash hash (m + 1) s) (hfuel : m ≤ fuel) :
    Reached cnFastHash hash 1 (halvingLoop (fun s => step cnFastHash s.ints s) fuel (2 ^ (m + 1)) s) := by
  induction fuel generalizing m s with
  | zero =>
    obtain rfl := Nat.le_zero.mp hfuel
    exact h
  | succ fuel ih =>
    rw [Crypto.halvingLoop]
    cases m with
    | zero => exact h
    | succ m =>
      have hmore : 2 ^ (m + 1 + 1) > 2 := by
        have := Nat.one_lt_two_pow (show m + 1 ≠ 0 by omega)
        rw [pow_succ]
        omega
      have hhalf : 2 ^ (m + 1 + 1) >>> 1 = 2 ^ (m + 1) := by
        rw [Nat.shiftRight_eq_div_pow, pow_one, pow_succ, Nat.mul_div_cancel _ (by decide)]
      rw [if_pos hmore, hhalf]
      exact ih h.pairLoop (by omega)

theorem reached_leaves (cnFastHash : Hash × Hash → Hash) {hashes : List Hash} {idx m : ℕ} (hidx : idx < hashes.length) (hm : m ≤ 26)
    (hlt : 2 ^ (m + 1) < hashes.length) (hle : hashes.length ≤ 2 * 2 ^ (m + 1)) :
    Reached cnFastHash (hashAt hashes idx) (m + 1)
      (pairLoop (step cnFastHash (hashAt hashes)) (2 * 2 ^ (m + 1) - hashes.length)
        (2 ^ (m + 1) - (2 * 2 ^ (m + 1) - hashes.length))
        ⟨copied hashes (2 * 2 ^ (m + 1) - hashes.length), [], ⟨idx, 0⟩⟩) := by
  generalize hcnt : 2 ^ (m + 1) = cnt at hlt hle ⊢
  generalize hfirst : 2 * cnt - hashes.length = first
  set s₀ : BranchState Hash := ⟨copied hashes first, [], ⟨idx, 0⟩⟩ with hs₀
  have hints := pairLoop_ints cnFastHash (hashAt hashes) s₀ first (cnt - first)
  have hpath₀ : s₀.walk.path.toNat < 2 ^ s₀.branch.length := Nat.zero_lt_one
  by_cases hcopied : idx < first
  · -- a leaf that is copied as it is
    have hunmet : ∀ k < cnt - first, ¬ s₀.walk.Meets (first + 2 * k) := fun k _ hmeets => by
      change idx = _ ∨ idx = _ at hmeets
      omega
    obtain ⟨hwalk, hbranch⟩ := pairLoop_unmet cnFastHash (hashAt hashes) hunmet
    refine ⟨?_, ?_, ?_, ?_⟩
    · rw [hwalk, hcnt]
      change idx < cnt
      omega
    · rw [hbranch]
      change 0 + (m + 1) ≤ 28
      omega
    · rw [hwalk, hbranch]
      exact hpath₀
    · rw [hwalk, hbranch, hints, if_neg (by change ¬ (first ≤ idx ∧ _); omega)]
      exact (if_pos hcopied).symm
  · have hmeets : s₀.walk.Meets (first + 2 * ((idx - first) / 2)) := by
      change idx = _ ∨ idx = _
      omega
    have hstart : treeBranchHash cnFastHash (hashAt hashes idx) s₀.branch s₀.branch.length s₀.walk.path =
        hashAt hashes s₀.walk.idx := rfl
    obtain ⟨hwalk, hbranch⟩ := pairLoop_met cnFastHash (hashAt hashes)
      (show (idx - first) / 2 < cnt - first by omega) hmeets
    obtain ⟨hlen, hpath, hhash⟩ := treeBranchHash_collect hmeets (Nat.zero_le _) hpath₀ hstart (first + (idx - first) / 2)
    have hint := hints (first + (idx - first) / 2)
    rw [if_pos (by omega), Nat.add_sub_cancel_left] at hint
    refine ⟨?_, ?_, ?_, ?_⟩
    · rw [hwalk, walk_collect hmeets, hcnt]
      change first + (idx - first) / 2 < cnt
      omega
    · rw [hbranch, hlen]
      change 0 + 1 + (m + 1) ≤ 28
      omega
    · rw [hwalk, hbranch, hlen]
      exact hpath
    · rw [hwalk, hbranch, hlen, hhash, walk_collect hmeets]
      exact hint.symm

end

section

variable [Inhabited Hash] [DecidableEq Hash] (cnFastHash : Hash × Hash → Hash)

open BranchState

theorem treeBranch_many {hashes : List Hash} {hash : Hash} (hmem : hash ∈ hashes) (hlow : 3 ≤ hashes.length)
    (hhigh : hashes.length ≤ 2 ^ 28) :
    ∃ branch path root, treeBranch cnFastHash hashes hash = some (some (branch, branch.length, path)) ∧
      treePath hashes.length (hashes.idxOf hash) = some (some path) ∧ treeHash cnFastHash hashes = some root ∧
      treeBranchHash cnFastHash hash branch branch.length path = root := by
  obtain ⟨m, hcnt, hm, hlt, hle⟩ := treeHashCnt_spec hlow hhigh
  have hidx : hashes.idxOf hash < hashes.length := List.idxOf_lt_length_iff.mpr hmem
  have hhash : hashAt hashes (hashes.idxOf hash) = hash := by
    rw [hashAt, List.getD_eq_getElem _ _ hidx, List.getElem_idxOf]
  have hleaves := reached_leaves cnFastHash hidx hm hlt hle
  rw [hhash] at hleaves
  have hreached := hleaves.halvingLoop (2 ^ (m + 1)) (by
    have := Nat.lt_two_pow_self (n := m + 1)
    omega)
  rw [← foldTree] at hreached
  generalize hs : foldTree (step cnFastHash (hashAt hashes)) (fun s => step cnFastHash s.ints s) hashes.length
    (2 ^ (m + 1)) ⟨copied hashes (2 * 2 ^ (m + 1) - hashes.length), [], ⟨hashes.idxOf hash, 0⟩⟩ = s at hreached
  have hmeets : s.walk.Meets 0 := by
    have := hreached.idx_lt
    rw [Walk.Meets]
    omega
  have hshort := hreached.short
  obtain ⟨hlen, -, htop⟩ := treeBranchHash_collect hmeets (by omega) hreached.path_lt hreached.hash_eq 0
  have hints : foldTree (hashStep cnFastHash (hashAt hashes)) (fun ints => hashStep cnFastHash ints ints) hashes.length
      (2 ^ (m + 1)) (copied hashes (2 * 2 ^ (m + 1) - hashes.length)) = s.ints := by
    rw [← hs]
    symm
    exact map_foldTree BranchState.ints (fun _ _ _ => rfl) (fun _ _ _ => rfl) _ _ _
  have hwalk : foldTree Walk.meet Walk.meet hashes.length (2 ^ (m + 1)) ⟨hashes.idxOf hash, 0⟩ = s.walk := by
    rw [← hs]
    symm
    exact map_foldTree BranchState.walk (fun _ _ _ => rfl) (fun _ _ _ => rfl) _ _ _
  refine ⟨(s.collect s.ints 0 0).branch, (s.collect s.ints 0 0).walk.path, cnFastHash (s.ints 0, s.ints 1), ?_, ?_, ?_, ?_⟩
  · rw [treeBranch, if_neg hidx.ne]
    split
    · omega
    · omega
    · omega
    · rw [hcnt, Option.map_some, hs]
  · rw [treePath, hcnt, Option.map_some, hwalk]
    · rfl
    all_goals omega
  · rw [treeHash]
    split
    · omega
    · omega
    · omega
    · rw [hcnt, Option.map_some, hints]
  · rw [hlen, htop]

theorem treeBranch_few {hashes : List Hash} {hash : Hash} (hmem : hash ∈ hashes) (hfew : hashes.length ≤ 2) :
    ∃ branch path root, treeBranch cnFastHash hashes hash = some (some (branch, branch.length, path)) ∧
      treePath hashes.length (hashes.idxOf hash) = some (some path) ∧ treeHash cnFastHash hashes = some root ∧
      treeBranchHash cnFastHash hash branch branch.length path = root := by
  have hleft : ¬ (((0 : UInt32) >>> UInt32.ofNat 0) &&& 1 ≠ 0) := by decide
  have hright : ((1 : UInt32) >>> UInt32.ofNat 0) &&& 1 ≠ 0 := by decide
  rcases hashes with _ | ⟨a, _ | ⟨b, _ | ⟨c, rest⟩⟩⟩
  · cases hmem
  · obtain rfl := List.mem_singleton.mp hmem
    refine ⟨[], 0, hash, ?_, rfl, rfl, rfl⟩
    rw [treeBranch, List.idxOf_cons_self, if_neg (by simp)]
    rfl
  · by_cases hfirst : hash = a
    · subst hfirst
      refine ⟨[b], 0, cnFastHash (hash, b), ?_, ?_, rfl, congrArg cnFastHash (if_neg hleft)⟩
      · rw [treeBranch, List.idxOf_cons_self, if_neg (by simp)]
        rfl
      · rw [List.idxOf_cons_self]
        rfl
    · obtain rfl : hash = b := by simpa [hfirst] using hmem
      have hidx : [a, hash].idxOf hash = 1 := by
        rw [List.idxOf_cons_ne _ (Ne.symm hfirst), List.idxOf_cons_self]
      refine ⟨[a], 1, cnFastHash (a, hash), ?_, ?_, rfl, congrArg cnFastHash (if_pos hright)⟩
      · rw [treeBranch, hidx, if_neg (by simp)]
        rfl
      · rw [hidx]
        rfl
  · simp at hfew

theorem tree_branch_correct (hashes : List Hash) (hhigh : hashes.length ≤ 0x10000000) (hash : Hash) (hmem : hash ∈ hashes) :
    ∃ branch depth path root,
      treeBranch cnFastHash hashes hash = some (some (branch, depth, path)) ∧
      treePath hashes.length (hashes.idxOf hash) = some (some path) ∧
      treeHash cnFastHash hashes = some root ∧
      treeBranchHash cnFastHash hash branch depth path = root ∧
      isBranchInTree cnFastHash hash root branch depth path = true ∧
      ∀ hash' branch', isBranchInTree cnFastHash hash' root branch' depth path = true →
        Set.InjOn cnFastHash
          ({p | ∃ d < depth, p = branchBuffer branch depth path (partialHash cnFastHash hash branch depth path d) d} ∪
            {p | ∃ d < depth, p = branchBuffer branch' depth path (partialHash cnFastHash hash' branch' depth path d) d}) →
        hash' = hash := by
  have hfound : ∃ branch path root, treeBranch cnFastHash hashes hash = some (some (branch, branch.length, path)) ∧
      treePath hashes.length (hashes.idxOf hash) = some (some path) ∧ treeHash cnFastHash hashes = some root ∧
      treeBranchHash cnFastHash hash branch branch.length path = root := by
    rcases Nat.lt_or_ge 2 hashes.length with hmany | hfew
    · exact treeBranch_many cnFastHash hmem hmany hhigh
    · exact treeBranch_few cnFastHash hmem hfew
  obtain ⟨branch, path, root, hbranch, hpath, hroot, hclimb⟩ := hfound
  refine ⟨branch, branch.length, path, root, hbranch, hpath, hroot, hclimb, decide_eq_true hclimb, ?_⟩
  intro hash' branch' haccept hfree
  refine (eq_of_treeBranchHash_eq hfree (fun d hd => .inl ⟨d, hd, rfl⟩) (fun d hd => .inr ⟨d, hd, rfl⟩) ?_).symm
  rw [hclimb]
  exact (of_decide_eq_true haccept).symm

theorem tree_branch_correct_five :
    ∃ branch depth path root,
      treeBranch (fun p : ℕ × ℕ => Nat.pair p.1 p.2) [3, 1, 4, 2, 5] 5 = some (some (branch, depth, path)) ∧
      treeHash (fun p : ℕ × ℕ => Nat.pair p.1 p.2) [3, 1, 4, 2, 5] = some root ∧
      ∀ hash' branch', isBranchInTree (fun p : ℕ × ℕ => Nat.pair p.1 p.2) hash' root branch' depth path = true →
        hash' = 5 := by
  have hfree : Function.Injective fun p : ℕ × ℕ => Nat.pair p.1 p.2 := by
    intro p q h
    obtain ⟨hfst, hsnd⟩ := Nat.pair_eq_pair.mp h
    exact Prod.ext hfst hsnd
  obtain ⟨branch, depth, path, root, hbranch, -, hroot, -, -, honly⟩ :=
    tree_branch_correct (fun p : ℕ × ℕ => Nat.pair p.1 p.2) [3, 1, 4, 2, 5] (by decide) 5 (by decide)
  exact ⟨branch, depth, path, root, hbranch, hroot, fun hash' branch' h => honly hash' branch' h hfree.injOn⟩

end

end Velkavo.Crypto
