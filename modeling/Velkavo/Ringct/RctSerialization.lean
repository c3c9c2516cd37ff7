import Velkavo.Ringct.RctTypes

namespace Velkavo.Rct

open ByteCodec ByteCodec.Codec

def key : Codec Key := blob 32

instance consumes_blob : Consumes (blob 32) := inferInstance

def keyV : Codec (List Key) := container (blob 32)

instance : Exact key := inferInstanceAs (Exact (blob 32))

instance : Exact keyV := inferInstanceAs (Exact (container (blob 32)))

def rctType : Codec RctType :=
  tagged byte RctType.toByte (fun b => (RctType.ofByte b).elim fail only) fun b t h => by
    cases hb : RctType.ofByte b with
    | none => simp [hb, fail] at h
    | some t' =>
      rw [hb, Option.elim_some, valid_only] at h
      rw [h]
      exact RctType.toByte_of_ofByte hb

instance : Exact rctType := exact_tagged fun b => by
  cases RctType.ofByte b with
  | none => exact ⟨fun _ => rfl⟩
  | some t => exact inferInstanceAs (Exact (only t))

theorem valid_rctType (t : RctType) : rctType.valid t = true := by cases t <;> rfl

def ecdhTuple : Codec EcdhTuple :=
  view (seq key key) (fun e => (e.mask, e.amount)) (fun x => ⟨x.1, x.2⟩) fun _ _ => rfl

def truncAmount (amount : Key) : Blob 8 :=
  ⟨amount.bytes.take 8, by rw [List.length_take, amount.length_eq]; rfl⟩

def extendAmount (amount : Blob 8) : Key :=
  ⟨amount.bytes ++ List.replicate 24 0, by simp [amount.length_eq]⟩

theorem truncAmount_extendAmount (amount : Blob 8) : truncAmount (extendAmount amount) = amount := by
  ext1
  exact List.take_left' amount.length_eq

def shortEcdhTuple : Codec EcdhTuple :=
  view (blob 8) (fun e => truncAmount e.amount) (fun x => ⟨Blob.zero 32, extendAmount x⟩)
    fun x _ => truncAmount_extendAmount x

def outPkMask : Codec CtKey := view key CtKey.mask (fun mask => ⟨Blob.zero 32, mask⟩) fun _ _ => rfl

def rctSigBaseBody (inputs outputs : ℕ) (t : RctType) : Codec RctSigBase :=
  if t = .null then
    inject (absent ()) (fun b => if b.type = .null then some () else none) (fun _ => default)
      fun _ => rfl
  else
    inject
      (seq varint64
        (seq (if t = .simple then many inputs key else absent [])
          (seq (many outputs (if t.shortEcdh then shortEcdhTuple else ecdhTuple))
            (many outputs outPkMask))))
      (fun b => if b.type = t then some (b.txnFee, b.pseudoOuts, b.ecdhInfo, b.outPk) else none)
      (fun x => ⟨t, x.2.1, x.2.2.1, x.2.2.2, x.1⟩) fun _ => if_pos rfl

theorem type_of_valid_body (inputs outputs : ℕ) (t : RctType) (b : RctSigBase)
    (h : (rctSigBaseBody inputs outputs t).valid b = true) : b.type = t := by
  by_contra hne
  by_cases ht : t = .null
  · subst ht
    simp [rctSigBaseBody, inject, hne] at h
  · simp [rctSigBaseBody, ht, inject, hne] at h

def rctSigBase (inputs outputs : ℕ) : Codec RctSigBase :=
  tagged rctType RctSigBase.type (rctSigBaseBody inputs outputs) (type_of_valid_body inputs outputs)

def boroSig : Codec BoroSig :=
  view (seq (blob (64 * 32)) (seq (blob (64 * 32)) key)) (fun s => (s.s0, s.s1, s.ee))
    (fun x => ⟨x.1, x.2.1, x.2.2⟩) fun _ _ => rfl

def rangeSig : Codec RangeSig :=
  view (seq boroSig (blob (64 * 32))) (fun s => (s.asig, s.Ci)) (fun x => ⟨x.1, x.2⟩) fun _ _ => rfl

def clsag (mixin : ℕ) : Codec Clsag :=
  view (seq (many (mixin + 1) key) (seq key key)) (fun s => (s.s, s.c1, s.D))
    (fun x => ⟨x.1, x.2.1, x.2.2⟩) fun _ _ => rfl

def mgSig (mixin rows : ℕ) : Codec MgSig :=
  view (seq (many (mixin + 1) (many rows key)) key) (fun s => (s.ss, s.cc)) (fun x => ⟨x.1, x.2⟩)
    fun _ _ => rfl

def Bulletproof.sizesOk (p : Bulletproof) : Bool := !p.L.isEmpty && p.L.length == p.R.length

def BulletproofPlus.sizesOk (p : BulletproofPlus) : Bool := !p.L.isEmpty && p.L.length == p.R.length

def bulletproofFields : Codec Bulletproof :=
  view
    (seq key (seq key (seq key (seq key (seq key (seq key
      (seq keyV (seq keyV (seq key (seq key key))))))))))
    (fun p => (p.A, p.S, p.T1, p.T2, p.taux, p.mu, p.L, p.R, p.a, p.b, p.t))
    (fun (A, S, T1, T2, taux, mu, L, R, a, b, t) => ⟨[], A, S, T1, T2, taux, mu, L, R, a, b, t⟩)
    fun _ _ => rfl

theorem kept_bulletproofFields (p : Bulletproof) : bulletproofFields.kept p = { p with V := [] } := by
  simp only [bulletproofFields, view, Exact.kept_eq]

def bulletproof : Codec Bulletproof :=
  filter bulletproofFields Bulletproof.sizesOk fun p _ h => by rw [kept_bulletproofFields]; exact h

def bulletproofPlusFields : Codec BulletproofPlus :=
  view
    (seq key (seq key (seq key (seq key (seq key (seq key (seq keyV keyV)))))))
    (fun p => (p.A, p.A1, p.B, p.r1, p.s1, p.d1, p.L, p.R))
    (fun (A, A1, B, r1, s1, d1, L, R) => ⟨[], A, A1, B, r1, s1, d1, L, R⟩)
    fun _ _ => rfl

theorem kept_bulletproofPlusFields (p : BulletproofPlus) :
    bulletproofPlusFields.kept p = { p with V := [] } := by
  simp only [bulletproofPlusFields, view, Exact.kept_eq]

def bulletproofPlus : Codec BulletproofPlus :=
  filter bulletproofPlusFields BulletproofPlus.sizesOk fun p _ h => by
    rw [kept_bulletproofPlusFields]; exact h

theorem kept_bulletproof (p : Bulletproof) : bulletproof.kept p = { p with V := [] } :=
  kept_bulletproofFields p

theorem kept_bulletproofPlus (p : BulletproofPlus) : bulletproofPlus.kept p = { p with V := [] } :=
  kept_bulletproofPlusFields p

theorem maxAmounts_kept (l : List Bulletproof) :
    nBulletproofMaxAmounts (l.map bulletproof.kept) = nBulletproofMaxAmounts l := by
  simp only [nBulletproofMaxAmounts, List.map_map]
  congr 2
  funext p
  rw [Function.comp_apply, kept_bulletproof]
  rfl

theorem maxAmountsPlus_kept (l : List BulletproofPlus) :
    nBulletproofPlusMaxAmounts (l.map bulletproofPlus.kept) = nBulletproofPlusMaxAmounts l := by
  simp only [nBulletproofPlusMaxAmounts, List.map_map]
  congr 2
  funext p
  rw [Function.comp_apply, kept_bulletproofPlus]
  rfl

/-- The 32-bit count is exact, because a longer vector is refused by the limit. -/
def bulletproofs (cnt : Codec UInt32) [Exact cnt] (outputs : ℕ) : Codec (List Bulletproof) :=
  filter (counted cnt outputs bulletproof) (fun l => decide (outputs ≤ nBulletproofMaxAmounts l))
    fun l hv h => by rwa [kept_counted _ _ hv, maxAmounts_kept]

def bulletproofsPlus (outputs : ℕ) : Codec (List BulletproofPlus) :=
  filter (counted varint32 outputs bulletproofPlus)
    (fun l => decide (outputs ≤ nBulletproofPlusMaxAmounts l))
    fun l hv h => by rwa [kept_counted _ _ hv, maxAmountsPlus_kept]

def rangeProofs (t : RctType) (outputs : ℕ) :
    Codec (List RangeSig × List Bulletproof × List BulletproofPlus) :=
  if t.isBulletproofPlus then seq (absent []) (seq (absent []) (bulletproofsPlus outputs))
  else if t.isBulletproof then
    seq (absent [])
      (seq (if t = .bulletproof then bulletproofs uint32 outputs else bulletproofs varint32 outputs)
        (absent []))
  else seq (many outputs rangeSig) (seq (absent []) (absent []))

def ringSignatures (t : RctType) (inputs mixin : ℕ) : Codec (List MgSig × List Clsag) :=
  if t.isClsag then seq (absent []) (many inputs (clsag mixin))
  else
    let mgElements := if t.mgPerInput then inputs else 1
    let mgSs2Elements := (if t.mgPerInput then 1 else inputs) + 1
    seq (many mgElements (mgSig mixin mgSs2Elements)) (absent [])

def rctSigPrunable (t : RctType) (inputs outputs mixin : ℕ) : Codec RctSigPrunable :=
  if inputs ≥ 0xffffffff then fail
  else if outputs ≥ 0xffffffff then fail
  else if mixin ≥ 0xffffffff then fail
  else if t = .null then absent default
  else
    view
      (seq (rangeProofs t outputs)
        (seq (ringSignatures t inputs mixin)
          (if t.isBulletproof || t.isBulletproofPlus then many inputs key else absent [])))
      (fun p => ((p.rangeSigs, p.bulletproofs, p.bulletproofsPlus), (p.MGs, p.CLSAGs), p.pseudoOuts))
      (fun ((rangeSigs, bulletproofs, bulletproofsPlus), (MGs, CLSAGs), pseudoOuts) =>
        ⟨rangeSigs, bulletproofs, bulletproofsPlus, MGs, CLSAGs, pseudoOuts⟩)
      fun _ _ => rfl

theorem type_kept_base (inputs outputs : ℕ) (b : RctSigBase) :
    ((rctSigBase inputs outputs).kept b).type = b.type := by
  show ((rctSigBaseBody inputs outputs b.type).kept b).type = b.type
  by_cases ht : b.type = .null
  · simp only [rctSigBaseBody, ht, if_true, inject, Option.elim_some]
    rfl
  · simp only [rctSigBaseBody, ht, if_false, if_true, inject, Option.elim_some]

/-- A pruned signature ends after its base. -/
def rctSig (pruned : Bool) (inputs outputs mixin : ℕ) : Codec RctSig :=
  view
    (dep (rctSigBase inputs outputs)
      (fun b =>
        if pruned || b.type = .null then absent default
        else rctSigPrunable b.type inputs outputs mixin)
      fun b => by rw [type_kept_base])
    (fun s => (s.toRctSigBase, s.p)) (fun x => ⟨x.1, x.2⟩) fun _ _ => rfl

end Velkavo.Rct
