import Velkavo.Effects.Traced
import Velkavo.Ringct.RctWellFormed

/-! What the code computes from the lengths of range proofs, with the shifts and table accesses it makes. -/

namespace Velkavo.Rct.Lengths

open Effects Effects.Traced

inductive Access
  | shift (amount width : ℕ)
  | generator (index tableSize : ℕ)
  deriving DecidableEq, Repr

def Access.InRange : Access → Prop
  | .shift amount width => amount < width
  | .generator index tableSize => index < tableSize

instance : DecidablePred Access.InRange := fun
  | .shift amount width => inferInstanceAs (Decidable (amount < width))
  | .generator index tableSize => inferInstanceAs (Decidable (index < tableSize))

abbrev Run := Traced Access

def intWidth : ℕ := 32

def shiftOne (amount : ℕ) : Run ℕ := do
  emit (.shift amount intWidth)
  pure (1 <<< amount)

def nBulletproofMaxAmountsBase (lSize rSize maxOutputs : ℕ) : Run ℕ :=
  let extraBits := 4
  if lSize < 6 then pure 0
  else if lSize ≠ rSize then pure 0
  else if 1 <<< extraBits ≠ maxOutputs then pure 0
  else if lSize > 6 + extraBits then pure 0
  else shiftOne (lSize - 6)

def nBulletproofAmountsBase (lSize rSize vSize maxOutputs : ℕ) : Run ℕ :=
  let extraBits := 4
  if lSize < 6 then pure 0
  else if lSize ≠ rSize then pure 0
  else if 1 <<< extraBits ≠ maxOutputs then pure 0
  else if lSize > 6 + extraBits then pure 0
  else do
    let most ← shiftOne (lSize - 6)
    if vSize > most then pure 0
    else
      let most ← shiftOne (lSize - 6)
      if vSize * 2 ≤ most then pure 0
      else if vSize = 0 then pure 0
      else pure vSize

def sumAmounts {π : Type} (amounts : π → Run ℕ) : ℕ → List π → Run ℕ
  | n, [] => pure n
  | n, proof :: proofs => do
    let n2 ← amounts proof
    if ¬ n2 < 0xffffffff - n then pure 0
    else if n2 = 0 then pure 0
    else sumAmounts amounts (n + n2) proofs

def maxAmounts (proof : Bulletproof) : Run ℕ :=
  nBulletproofMaxAmountsBase proof.L.length proof.R.length bulletproofMaxOutputs

def maxAmountsPlus (proof : BulletproofPlus) : Run ℕ :=
  nBulletproofMaxAmountsBase proof.L.length proof.R.length bulletproofPlusMaxOutputs

def nBulletproofMaxAmounts : List Bulletproof → Run ℕ := sumAmounts maxAmounts 0

def nBulletproofPlusMaxAmounts : List BulletproofPlus → Run ℕ := sumAmounts maxAmountsPlus 0

def amounts (proof : Bulletproof) : Run ℕ :=
  nBulletproofAmountsBase proof.L.length proof.R.length proof.V.length bulletproofMaxOutputs

def amountsPlus (proof : BulletproofPlus) : Run ℕ :=
  nBulletproofAmountsBase proof.L.length proof.R.length proof.V.length bulletproofPlusMaxOutputs

def nBulletproofAmounts : List Bulletproof → Run ℕ := sumAmounts amounts 0

def nBulletproofPlusAmounts : List BulletproofPlus → Run ℕ := sumAmounts amountsPlus 0

structure ProofTests where
  scalarsReduced : Bool
  firstChallengesNonzero : Bool
  roundChallengesNonzero : Bool
  pointsValid : Bool

structure ProofView extends ProofTests where
  V : ℕ
  L : ℕ
  R : ℕ

def maxN : ℕ := 64

/-- The loop `for (logM = 0; (M = 1<<logM) <= maxM && M < V.size(); ++logM);`. -/
def findLogM (maxM vSize : ℕ) : ℕ → ℕ → Run ℕ
  | 0, logM => pure logM
  | fuel + 1, logM => do
    let M ← shiftOne logM
    if M ≤ maxM ∧ M < vSize then findLogM maxM vSize fuel (logM + 1) else pure logM

def verifyShape (maxM : ℕ) (proof : ProofView) : Run ℕ := do
  require proof.scalarsReduced
  require (proof.V ≥ 1)
  require (proof.L = proof.R)
  require (proof.L > 0)
  require proof.firstChallengesNonzero
  let logM ← findLogM maxM proof.V (maxM + 1) 0
  require (proof.L = 6 + logM)
  require proof.roundChallengesNonzero
  pure logM

def verifyWeighted (proof : ProofView) (logM : ℕ) : Run Unit := do
  require (proof.L = 6 + logM)
  let _ ← shiftOne logM
  require proof.pointsValid
  let rounds := logM + 6
  let _ ← shiftOne rounds
  forM (List.range' 1 (rounds - 1)) fun j => do
    let _ ← shiftOne (j + 1)

def verify (maxM : ℕ) (identity : Bool) (proofs : List ProofView) : Run Unit := do
  let logMs ← proofs.mapM' (verifyShape maxM)
  let maxLength := (proofs.map ProofView.L).foldl max 0
  require (maxLength < 32)
  let maxMN ← shiftOne maxLength
  forM (proofs.zip logMs) fun p => verifyWeighted p.1 p.2
  forM (List.range maxMN) fun i => do
    emit (.generator i (maxN * maxM))
    emit (.generator i (maxN * maxM))
  require identity

structure Outcomes where
  bulletproof : Bulletproof → ProofTests
  bulletproofPlus : BulletproofPlus → ProofTests
  batch : List Bulletproof → Bool
  batchPlus : List BulletproofPlus → Bool
  sumsEqual : RctSig → Bool
  verRange : Key → RangeSig → Bool

variable (outcomes : Outcomes)

def viewOf (proof : Bulletproof) : ProofView :=
  ⟨outcomes.bulletproof proof, proof.V.length, proof.L.length, proof.R.length⟩

def viewOfPlus (proof : BulletproofPlus) : ProofView :=
  ⟨outcomes.bulletproofPlus proof, proof.V.length, proof.L.length, proof.R.length⟩

def bulletproofVerify (proofs : List Bulletproof) : Run Unit :=
  verify bulletproofMaxOutputs (outcomes.batch proofs) (proofs.map (viewOf outcomes))

def bulletproofPlusVerify (proofs : List BulletproofPlus) : Run Unit :=
  verify bulletproofPlusMaxOutputs (outcomes.batchPlus proofs) (proofs.map (viewOfPlus outcomes))

def isSimple : RctType → Bool
  | .simple | .bulletproof | .bulletproof2 | .clsag | .bulletproofPlus => true
  | .null | .full => false

def nAmounts (rv : RctSig) : Run ℕ :=
  if rv.type.isBulletproofPlus then nBulletproofPlusAmounts rv.p.bulletproofsPlus
  else nBulletproofAmounts rv.p.bulletproofs

def checkBulletproofSizes (rv : RctSig) : Run Unit := do
  let n ← nAmounts rv
  require (rv.outPk.length = n)
  (if rv.type.isClsag then require (rv.p.MGs = [] ∧ rv.p.pseudoOuts.length = rv.p.CLSAGs.length)
    else require (rv.p.CLSAGs = [] ∧ rv.p.pseudoOuts.length = rv.p.MGs.length))
  require (rv.pseudoOuts = [])

def checkRangeSigSizes (rv : RctSig) : Run Unit := do
  require (rv.outPk.length = rv.p.rangeSigs.length)
  require (rv.pseudoOuts.length = rv.p.MGs.length)
  require (rv.p.pseudoOuts = [])

def checkSizes (rv : RctSig) : Run Unit := do
  require (isSimple rv.type)
  (if rv.type.isBulletproof ∨ rv.type.isBulletproofPlus then checkBulletproofSizes rv else checkRangeSigSizes rv)
  require (rv.outPk.length = rv.ecdhInfo.length)

def plusProofs (rvv : List RctSig) : List BulletproofPlus :=
  rvv.flatMap fun rv => if rv.type.isBulletproofPlus then rv.p.bulletproofsPlus else []

def plainProofs (rvv : List RctSig) : List Bulletproof :=
  rvv.flatMap fun rv =>
    if rv.type.isBulletproofPlus then [] else if rv.type.isBulletproof then rv.p.bulletproofs else []

def rangeSigsHold (rv : RctSig) : Bool :=
  rv.type.isBulletproofPlus || rv.type.isBulletproof ||
    (rv.outPk.zip rv.p.rangeSigs).all fun x => outcomes.verRange x.1.mask x.2

def verRctSemanticsSimple (rvv : List RctSig) : Run Unit := do
  forM rvv checkSizes
  forM rvv fun rv => require (outcomes.sumsEqual rv)
  (if plusProofs rvv = [] then pure () else bulletproofPlusVerify outcomes (plusProofs rvv))
  (if plainProofs rvv = [] then pure () else bulletproofVerify outcomes (plainProofs rvv))
  forM rvv fun rv => require (rangeSigsHold outcomes rv)

theorem within_shiftOne {amount : ℕ} (h : amount < 32) :
    Within Access.InRange (shiftOne amount) fun n => n = 2 ^ amount := by
  have hshift : (Access.shift amount intWidth).InRange := h
  apply (within_emit hshift).bind
  intro _ _
  exact within_pure (Nat.one_shiftLeft amount)

theorem within_maxAmountsBase (l r m : ℕ) :
    Within Access.InRange (nBulletproofMaxAmountsBase l r m) fun _ => True := by
  refine within_ite (fun _ => within_pure trivial) fun _ => ?_
  refine within_ite (fun _ => within_pure trivial) fun _ => ?_
  refine within_ite (fun _ => within_pure trivial) fun _ => ?_
  refine within_ite (fun _ => within_pure trivial) fun hl => ?_
  exact (within_shiftOne (by omega)).mono fun _ _ => trivial

theorem within_amountsBase (l r v m : ℕ) :
    Within Access.InRange (nBulletproofAmountsBase l r v m) fun n => n ≠ 0 → l ≤ 10 := by
  have hzero : Within Access.InRange (pure 0) fun n => n ≠ 0 → l ≤ 10 := within_pure fun h => absurd rfl h
  refine within_ite (fun _ => hzero) fun _ => ?_
  refine within_ite (fun _ => hzero) fun _ => ?_
  refine within_ite (fun _ => hzero) fun _ => ?_
  refine within_ite (fun _ => hzero) fun hl => ?_
  apply (within_shiftOne (by omega)).bind
  intro most _
  refine within_ite (fun _ => hzero) fun _ => ?_
  apply (within_shiftOne (by omega)).bind
  intro most _
  refine within_ite (fun _ => hzero) fun _ => ?_
  refine within_ite (fun _ => hzero) fun _ => ?_
  exact within_pure fun _ => by omega

theorem within_sumAmounts {π : Type} {amounts : π → Run ℕ} {P : π → ℕ → Prop} {proofs : List π}
    (h : ∀ p ∈ proofs, Within Access.InRange (amounts p) (P p)) (n : ℕ) :
    Within Access.InRange (sumAmounts amounts n proofs) fun k =>
      k ≠ 0 → ∀ p ∈ proofs, ∃ n2, n2 ≠ 0 ∧ P p n2 := by
  induction proofs generalizing n with
  | nil => exact within_pure fun _ => List.forall_mem_nil _
  | cons proof proofs ih =>
    obtain ⟨hproof, hproofs⟩ := List.forall_mem_cons.mp h
    apply hproof.bind
    intro n2 hn2
    refine within_ite (fun _ => within_pure fun h => absurd rfl h) fun _ => ?_
    refine within_ite (fun _ => within_pure fun h => absurd rfl h) fun hne => ?_
    apply (ih hproofs (n + n2)).mono
    intro k hk hk0
    exact List.forall_mem_cons.mpr ⟨⟨n2, hne, hn2⟩, hk hk0⟩

theorem within_findLogM {maxM vSize fuel logM : ℕ} (hwidth : logM + fuel ≤ 32) (hfuel : maxM < 2 ^ (logM + fuel)) :
    Within Access.InRange (findLogM maxM vSize fuel logM) fun r => ¬ (2 ^ r ≤ maxM ∧ 2 ^ r < vSize) := by
  induction fuel generalizing logM with
  | zero => exact within_pure fun h => absurd h.1 (not_le.mpr hfuel)
  | succ fuel ih =>
    apply (within_shiftOne (by omega)).bind
    rintro M rfl
    split_ifs with h
    · exact ih (by omega) (by rwa [Nat.add_right_comm, Nat.add_assoc])
    · exact within_pure h

theorem within_verifyShape (proof : ProofView) :
    Within Access.InRange (verifyShape 16 proof) fun logM => proof.L = 6 + logM := by
  apply (within_require _).bind
  intro _ _
  apply (within_require _).bind
  intro _ _
  apply (within_require _).bind
  intro _ _
  apply (within_require _).bind
  intro _ _
  apply (within_require _).bind
  intro _ _
  apply (within_findLogM (by decide) (by decide)).bind
  intro logM _
  apply (within_require _).bind
  intro _ hL
  apply (within_require _).bind
  intro _ _
  exact within_pure hL

theorem within_verifyWeighted {proof : ProofView} {logM : ℕ} (h : proof.L ≤ 10) :
    Within Access.InRange (verifyWeighted proof logM) fun _ => True := by
  apply (within_require _).bind
  intro _ hL
  apply (within_shiftOne (by omega)).bind
  intro _ _
  apply (within_require _).bind
  intro _ _
  apply (within_shiftOne (by omega)).bind
  intro _ _
  have hslots : Within Access.InRange (forM (List.range' 1 (logM + 6 - 1)) fun j => do
      let _ ← shiftOne (j + 1)) fun _ => ∀ j ∈ List.range' 1 (logM + 6 - 1), True := by
    apply within_forM
    intro j hj
    obtain ⟨-, hj⟩ := List.mem_range'_1.mp hj
    apply (within_shiftOne (by omega)).bind
    exact fun _ _ => within_pure trivial
  exact hslots.mono fun _ _ => trivial

theorem foldl_max_le {l : List ℕ} {n bound : ℕ} (hn : n ≤ bound) (h : ∀ k ∈ l, k ≤ bound) :
    l.foldl max n ≤ bound := by
  induction l generalizing n with
  | nil => exact hn
  | cons k l ih =>
    obtain ⟨hk, hl⟩ := List.forall_mem_cons.mp h
    exact ih (max_le hn hk) hl

theorem within_verify {identity : Bool} {proofs : List ProofView} (h : ∀ p ∈ proofs, p.L ≤ 10) :
    Within Access.InRange (verify 16 identity proofs) fun _ => True := by
  have hmax : (proofs.map ProofView.L).foldl max 0 ≤ 10 :=
    foldl_max_le (Nat.zero_le _) (List.forall_mem_map.mpr h)
  apply (within_mapM fun p _ => within_verifyShape p).bind
  intro logMs _
  apply (within_require _).bind
  intro _ hlt
  apply (within_shiftOne hlt).bind
  rintro maxMN rfl
  have hsecond : ∀ x ∈ proofs.zip logMs, Within Access.InRange (verifyWeighted x.1 x.2) fun _ => True :=
    fun x hx => within_verifyWeighted (h x.1 (List.of_mem_zip hx).1)
  apply (within_forM hsecond).bind
  intro _ _
  have htable : 2 ^ (proofs.map ProofView.L).foldl max 0 ≤ maxN * 16 :=
    Nat.pow_le_pow_right (by decide) hmax
  have hindices : ∀ i ∈ List.range (2 ^ (proofs.map ProofView.L).foldl max 0),
      Within Access.InRange (do emit (.generator i (maxN * 16)); emit (.generator i (maxN * 16)))
        fun _ => True := by
    intro i hi
    have hi : (Access.generator i (maxN * 16)).InRange := (List.mem_range.mp hi).trans_le htable
    apply (within_emit hi).bind
    intro _ _
    exact within_emit hi
  apply (within_forM hindices).bind
  intro _ _
  exact (within_require _).mono fun _ _ => trivial

/-- What the reader of a transaction makes sure of: without outputs there are no range proofs. -/
def NoProofsWithoutOutputs (rv : RctSig) : Prop :=
  rv.outPk.length = 0 →
    (rv.type.isBulletproofPlus → rv.p.bulletproofsPlus = []) ∧ (rv.type.isBulletproof → rv.p.bulletproofs = [])

def ShortProofs (rv : RctSig) : Prop :=
  (rv.type.isBulletproofPlus → ∀ p ∈ rv.p.bulletproofsPlus, p.L.length ≤ 10) ∧
    (rv.type.isBulletproof → ∀ p ∈ rv.p.bulletproofs, p.L.length ≤ 10)

theorem within_nAmounts {rv : RctSig} :
    Within Access.InRange (nAmounts rv) fun n => n ≠ 0 → ShortProofs rv := by
  have hone : ∀ {π : Type} {L : π → ℕ} {amounts : π → Run ℕ} {proofs : List π},
      (∀ p, Within Access.InRange (amounts p) fun n => n ≠ 0 → L p ≤ 10) →
      Within Access.InRange (sumAmounts amounts 0 proofs) fun n => n ≠ 0 → ∀ p ∈ proofs, L p ≤ 10 := by
    intro π L amounts proofs h
    apply (within_sumAmounts (fun p _ => h p) 0).mono
    intro n hn hn0 p hp
    obtain ⟨n2, hn2, hle⟩ := hn hn0 p hp
    exact hle hn2
  have hboth : rv.type.isBulletproofPlus = true → rv.type.isBulletproof = false := by cases rv.type <;> decide
  refine within_ite (fun hplus => ?_) fun hplus => ?_
  · apply (hone fun p => within_amountsBase _ _ _ _).mono
    intro n hn hn0
    refine ⟨fun _ => hn hn0, fun h => ?_⟩
    rw [hboth hplus] at h
    contradiction
  · apply (hone fun p => within_amountsBase _ _ _ _).mono
    intro n hn hn0
    exact ⟨fun h => absurd h hplus, fun _ => hn hn0⟩

theorem shortProofs_of_outPk {rv : RctSig} (hno : NoProofsWithoutOutputs rv) {n : ℕ} (hn : n ≠ 0 → ShortProofs rv)
    (hsize : rv.outPk.length = n) : ShortProofs rv := by
  by_cases hzero : n = 0
  · obtain ⟨hplus, hplain⟩ := hno (hsize.trans hzero)
    constructor
    · intro h p hp
      simp [hplus h] at hp
    · intro h p hp
      simp [hplain h] at hp
  · exact hn hzero

theorem within_checkSizes {rv : RctSig} (hno : NoProofsWithoutOutputs rv) :
    Within Access.InRange (checkSizes rv) fun _ => ShortProofs rv := by
  apply (within_require _).bind
  intro _ _
  have hsizes : Within Access.InRange
      (if rv.type.isBulletproof ∨ rv.type.isBulletproofPlus then checkBulletproofSizes rv else checkRangeSigSizes rv)
      fun _ => ShortProofs rv := by
    refine within_ite (fun _ => ?_) fun hnone => ?_
    · apply within_nAmounts.bind
      intro n hn
      apply (within_require _).bind
      intro _ hsize
      have hmid : Within Access.InRange
          (if rv.type.isClsag then require (rv.p.MGs = [] ∧ rv.p.pseudoOuts.length = rv.p.CLSAGs.length)
            else require (rv.p.CLSAGs = [] ∧ rv.p.pseudoOuts.length = rv.p.MGs.length)) fun _ => True :=
        within_ite (fun _ => (within_require _).mono fun _ _ => trivial)
          fun _ => (within_require _).mono fun _ _ => trivial
      apply hmid.bind
      intro _ _
      exact (within_require _).mono fun _ _ => shortProofs_of_outPk hno hn hsize
    · apply (within_require _).bind
      intro _ _
      apply (within_require _).bind
      intro _ _
      exact (within_require _).mono fun _ _ =>
        ⟨fun h => absurd (.inr h) hnone, fun h => absurd (.inl h) hnone⟩
  apply hsizes.bind
  intro _ hshort
  exact (within_require _).mono fun _ _ => hshort

theorem within_bulletproofPlusVerify {rvv : List RctSig} (h : ∀ rv ∈ rvv, ShortProofs rv) :
    Within Access.InRange (bulletproofPlusVerify outcomes (plusProofs rvv)) fun _ => True := by
  apply within_verify
  intro view hview
  obtain ⟨p, hp, rfl⟩ := List.mem_map.mp hview
  obtain ⟨rv, hrv, hp⟩ := List.mem_flatMap.mp hp
  split_ifs at hp with hplus
  · exact (h rv hrv).1 hplus p hp
  · cases hp

theorem within_bulletproofVerify {rvv : List RctSig} (h : ∀ rv ∈ rvv, ShortProofs rv) :
    Within Access.InRange (bulletproofVerify outcomes (plainProofs rvv)) fun _ => True := by
  apply within_verify
  intro view hview
  obtain ⟨p, hp, rfl⟩ := List.mem_map.mp hview
  obtain ⟨rv, hrv, hp⟩ := List.mem_flatMap.mp hp
  split_ifs at hp with hplus hplain
  · cases hp
  · exact (h rv hrv).2 hplain p hp
  · cases hp

theorem within_verRctSemanticsSimple {rvv : List RctSig} (hno : ∀ rv ∈ rvv, NoProofsWithoutOutputs rv) :
    Within Access.InRange (verRctSemanticsSimple outcomes rvv) fun _ => True := by
  apply (within_forM fun rv hrv => within_checkSizes (hno rv hrv)).bind
  intro _ hshort
  apply (within_forM fun rv _ => within_require (outcomes.sumsEqual rv = true)).bind
  intro _ _
  apply (within_ite (fun _ => within_pure trivial) fun _ => within_bulletproofPlusVerify outcomes hshort).bind
  intro _ _
  apply (within_ite (fun _ => within_pure trivial) fun _ => within_bulletproofVerify outcomes hshort).bind
  intro _ _
  exact (within_forM fun rv _ => within_require (rangeSigsHold outcomes rv = true)).mono fun _ _ => trivial

end Velkavo.Rct.Lengths
