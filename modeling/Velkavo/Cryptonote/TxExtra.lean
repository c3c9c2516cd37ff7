import Velkavo.ByteCodec.Records
import Velkavo.Core.MinerTx

namespace Velkavo.Cryptonote

open ByteCodec ByteCodec.Codec Velkavo.Core

inductive TxExtraField
  | padding (size : ℕ)
  | pubKey (pubKey : PublicKey)
  | nonce (nonce : Bytes)
  | mergeMiningTag (depth : UInt64) (merkleRoot : Hash)
  | additionalPubKeys (data : List PublicKey)
  | mysteriousMinergate (data : Bytes)
  deriving DecidableEq, Repr

inductive FieldType
  | padding
  | pubKey
  | nonce
  | mergeMiningTag
  | additionalPubKeys
  | mysteriousMinergate
  deriving DecidableEq, Repr

namespace FieldType

def tag : FieldType → UInt8
  | padding => 0x00
  | pubKey => txExtraTagPubkey
  | nonce => txExtraNonce
  | mergeMiningTag => 0x03
  | additionalPubKeys => 0x04
  | mysteriousMinergate => 0xde

def all : List FieldType := [padding, pubKey, nonce, mergeMiningTag, additionalPubKeys, mysteriousMinergate]

def body : FieldType → Codec TxExtraField
  | padding => fail
  | pubKey => inject (blob 32) (fun | .pubKey key => some key | _ => none) .pubKey fun _ => rfl
  | nonce =>
    inject (checked byteString fun s => decide (s.length ≤ txExtraNonceMaxCount)) (fun | .nonce s => some s | _ => none)
      .nonce fun _ => rfl
  | mergeMiningTag =>
    inject (nested (seq varint64 (blob 32))) (fun | .mergeMiningTag depth root => some (depth, root) | _ => none)
      (fun x => .mergeMiningTag x.1 x.2) fun _ => rfl
  | additionalPubKeys =>
    inject (container (blob 32)) (fun | .additionalPubKeys keys => some keys | _ => none) .additionalPubKeys fun _ => rfl
  | mysteriousMinergate =>
    inject byteString (fun | .mysteriousMinergate s => some s | _ => none) .mysteriousMinergate fun _ => rfl

end FieldType

def txExtraPaddingMaxCount : ℕ := 255

namespace TxExtraField

def type : TxExtraField → FieldType
  | padding _ => .padding
  | pubKey _ => .pubKey
  | nonce _ => .nonce
  | mergeMiningTag _ _ => .mergeMiningTag
  | additionalPubKeys _ => .additionalPubKeys
  | mysteriousMinergate _ => .mysteriousMinergate

def bytes : TxExtraField → Bytes
  | padding size => FieldType.padding.tag :: List.replicate (size - 1) 0
  | f => f.type.tag :: f.type.body.write f

def valid : TxExtraField → Bool
  | padding size => decide (size ≤ txExtraPaddingMaxCount)
  | f => f.type.body.valid f

end TxExtraField

def writeField (f : TxExtraField) : Option Bytes := if f.valid then some f.bytes else none

def paddingLoop : ℕ → Bytes → Option ℕ
  | size, [] => if size ≤ txExtraPaddingMaxCount then some size else none
  | size, zero :: bs => if size > txExtraPaddingMaxCount ∨ zero ≠ 0 then none else paddingLoop (size + 1) bs

def readField (p : AtEnd) : Bytes → Option (TxExtraField × Bytes)
  | [] => none
  | t :: bs =>
    match FieldType.all.find? fun type => type.tag = t with
    | none => none
    | some .padding => (paddingLoop 1 bs).map fun size => (.padding size, [])
    | some type => type.body.read p bs

def readTxExtra (p : AtEnd) (txExtra : Bytes) : List TxExtraField × Bytes := readRecords (readField p) txExtra.length txExtra

def parseTxExtra (txExtra : Bytes) : Bool × List TxExtraField :=
  ((readTxExtra .accept txExtra).2.isEmpty, (readTxExtra .accept txExtra).1)

def pick (type : FieldType) : ℕ → List TxExtraField → Option (Bytes × List TxExtraField)
  | 0, fields => some ([], fields)
  | fuel + 1, fields =>
    match fields.find? fun f => f.type = type with
    | none => some ([], fields)
    | some f => do
      let out ← writeField f
      let (outs, left) ← pick type fuel (fields.eraseP fun f => f.type = type)
      pure (out ++ outs, left)

def pickAll : List FieldType → List TxExtraField → Option (Bytes × List TxExtraField)
  | [], fields => some ([], fields)
  | type :: types, fields => do
    let (out, left) ← pick type fields.length fields
    let (outs, left) ← pickAll types left
    pure (out ++ outs, left)

def sortOrder : List FieldType :=
  [.pubKey, .additionalPubKeys, .nonce, .mergeMiningTag, .mysteriousMinergate, .padding]

def sortTxExtra (txExtra : Bytes) (allowPartial : Bool) : Option Bytes :=
  if txExtra = [] then some []
  else
    let (fields, unparsed) := readTxExtra .accept txExtra
    if !unparsed.isEmpty && !allowPartial then none
    else do
      let (out, left) ← pickAll sortOrder fields
      guard left.isEmpty
      pure (out ++ unparsed)

def addAdditionalTxPubKeysToExtra (txExtra : Bytes) (additionalPubKeys : List PublicKey) : Option Bytes :=
  (writeField (.additionalPubKeys additionalPubKeys)).map (txExtra ++ ·)

def removeFieldFromTxExtra (txExtra : Bytes) (type : FieldType) : Option Bytes :=
  let (fields, unparsed) := readTxExtra .accept txExtra
  if unparsed.isEmpty then
    some ((fields.filter fun f => f.type ≠ type).flatMap fun f => (writeField f).getD [])
  else none

namespace FieldType

theorem find_tag (type : FieldType) : (all.find? fun t => t.tag = type.tag) = some type := by
  cases type <;> rfl

theorem tag_of_find {t : UInt8} {type : FieldType} (h : (all.find? fun type => type.tag = t) = some type) : type.tag = t := by
  have htag := List.find?_some h
  exact of_decide_eq_true htag

theorem type_of_valid {type : FieldType} {f : TxExtraField} (h : type.body.valid f = true) : f.type = type := by
  cases type <;> cases f <;> simp_all [body, inject, fail, TxExtraField.type]

instance exact_body (type : FieldType) : Exact type.body := by
  cases type <;> dsimp only [body]
  case padding => exact ⟨fun _ => rfl⟩
  case mergeMiningTag =>
    refine exact_inject fun f x h => ?_
    cases f <;> simp at h
    subst h
    rfl
  all_goals exact exact_inject fun f _ h => by cases f <;> simp_all

theorem read_body_cases {type : FieldType} {bs rest : Bytes} {f : TxExtraField}
    (h : type.body.read .accept bs = some (f, rest)) :
    type.body.read .reject bs = some (f, rest) ∨ (rest = [] ∧ type.body.write f = [0]) := by
  cases type with
  | padding => simp [body, fail] at h
  | pubKey =>
    obtain ⟨⟨key, rest'⟩, hkey, he⟩ := Option.map_eq_some_iff.mp h
    exact .inl (Option.map_eq_some_iff.mpr ⟨_, Strict.strict_of_read hkey, he⟩)
  | nonce =>
    obtain ⟨⟨s, rest'⟩, hs, he⟩ := Option.map_eq_some_iff.mp h
    obtain ⟨rfl, rfl⟩ := Prod.mk.inj he
    obtain ⟨hs, hle⟩ := Option.filter_eq_some_iff.mp hs
    rcases strict_container hs with hstrict | ⟨rfl, rfl⟩
    · exact .inl (Option.map_eq_some_iff.mpr ⟨_, Option.filter_eq_some_iff.mpr ⟨hstrict, hle⟩, rfl⟩)
    · exact .inr ⟨rfl, rfl⟩
  | mergeMiningTag =>
    obtain ⟨⟨x, rest'⟩, hx, he⟩ := Option.map_eq_some_iff.mp h
    exact .inl (Option.map_eq_some_iff.mpr ⟨_, Strict.strict_of_read hx, he⟩)
  | additionalPubKeys =>
    obtain ⟨⟨keys, rest'⟩, hkeys, he⟩ := Option.map_eq_some_iff.mp h
    obtain ⟨rfl, rfl⟩ := Prod.mk.inj he
    rcases strict_container hkeys with hstrict | ⟨rfl, rfl⟩
    · exact .inl (Option.map_eq_some_iff.mpr ⟨_, hstrict, rfl⟩)
    · exact .inr ⟨rfl, rfl⟩
  | mysteriousMinergate =>
    obtain ⟨⟨s, rest'⟩, hs, he⟩ := Option.map_eq_some_iff.mp h
    obtain ⟨rfl, rfl⟩ := Prod.mk.inj he
    rcases strict_container hs with hstrict | ⟨rfl, rfl⟩
    · exact .inl (Option.map_eq_some_iff.mpr ⟨_, hstrict, rfl⟩)
    · exact .inr ⟨rfl, rfl⟩

end FieldType

structure Plain (f : TxExtraField) : Prop where
  type_ne : f.type ≠ .padding
  valid : f.type.body.valid f = true

def IsPadding (f : TxExtraField) : Prop := ∃ size, 1 ≤ size ∧ size ≤ txExtraPaddingMaxCount ∧ f = .padding size

variable {f : TxExtraField} {bs rest txExtra : Bytes} {p : AtEnd} {fields : List TxExtraField}

theorem bytes_plain (h : f.type ≠ .padding) : f.bytes = f.type.tag :: f.type.body.write f := by
  cases f with
  | padding => exact absurd rfl h
  | _ => rfl

theorem Plain.writable (h : Plain f) : f.valid = true := by
  cases f with
  | padding => exact absurd rfl h.type_ne
  | _ => exact h.valid

theorem readField_tag (p : AtEnd) {type : FieldType} (h : type ≠ .padding) (bs : Bytes) :
    readField p (type.tag :: bs) = type.body.read p bs := by
  rw [readField, FieldType.find_tag]
  cases type with
  | padding => exact absurd rfl h
  | _ => rfl

theorem Plain.readField_bytes (h : Plain f) (p : AtEnd) (rest : Bytes) :
    readField p (f.bytes ++ rest) = some (f, rest) := by
  rw [bytes_plain h.type_ne, List.cons_append, readField_tag p h.type_ne, f.type.body.read_write p f rest h.valid,
    Exact.kept_eq]

theorem paddingLoop_eq_some {size n : ℕ} :
    paddingLoop size bs = some n ↔ n = size + bs.length ∧ n ≤ txExtraPaddingMaxCount ∧ bs = List.replicate bs.length 0 := by
  induction bs generalizing size with
  | nil =>
    rw [paddingLoop]
    split_ifs with hsize <;> simp <;> omega
  | cons zero bs ih =>
    rw [paddingLoop]
    split_ifs with hstop
    · simp only [false_iff, List.length_cons, List.replicate_succ, List.cons.injEq]
      rintro ⟨rfl, hle, hzero, -⟩
      rcases hstop with hsize | hne
      · omega
      · exact hne hzero
    · rw [ih, List.length_cons, List.replicate_succ, List.cons.injEq]
      have hzero : zero = 0 := by
        by_contra hne
        exact hstop (.inr hne)
      constructor
      · rintro ⟨rfl, hle, hbs⟩
        exact ⟨by omega, hle, hzero, hbs⟩
      · rintro ⟨rfl, hle, -, hbs⟩
        exact ⟨by omega, hle, hbs⟩

theorem IsPadding.readField_bytes (h : IsPadding f) (p : AtEnd) : readField p f.bytes = some (f, []) := by
  obtain ⟨size, hpos, hle, rfl⟩ := h
  have hloop : paddingLoop 1 (List.replicate (size - 1) 0) = some size := by
    rw [paddingLoop_eq_some, List.length_replicate]
    exact ⟨by omega, hle, rfl⟩
  rw [TxExtraField.bytes, readField, FieldType.find_tag]
  dsimp only
  rw [hloop]
  rfl

theorem readField_cases (h : readField p bs = some (f, rest)) :
    (Plain f ∧ ∃ body, bs = f.type.tag :: body ∧ f.type.body.read p body = some (f, rest)) ∨
      (IsPadding f ∧ bs = f.bytes ∧ rest = []) := by
  cases bs with
  | nil => simp [readField] at h
  | cons t bs =>
    rw [readField] at h
    cases htype : FieldType.all.find? fun type => type.tag = t with
    | none =>
      rw [htype] at h
      simp at h
    | some type =>
      have htag := FieldType.tag_of_find htype
      subst htag
      by_cases hpadding : type = .padding
      · right
        subst hpadding
        rw [htype] at h
        obtain ⟨size, hloop, he⟩ := Option.map_eq_some_iff.mp h
        obtain ⟨rfl, rfl⟩ := Prod.mk.inj he
        obtain ⟨hsize, hle, hbs⟩ := paddingLoop_eq_some.mp hloop
        refine ⟨⟨size, by omega, hle, rfl⟩, ?_, rfl⟩
        rw [TxExtraField.bytes, hsize, Nat.add_sub_cancel_left, ← hbs]
      · left
        have hread : type.body.read p bs = some (f, rest) := by
          rw [← readField_tag p hpadding bs, readField]
          exact h
        have hvalid := type.body.valid_of_read hread
        have hft := FieldType.type_of_valid hvalid
        subst hft
        exact ⟨⟨hpadding, hvalid⟩, bs, rfl, hread⟩

theorem length_readField (h : readField p bs = some (f, rest)) :
    rest.length < bs.length := by
  rcases readField_cases h with ⟨hplain, body, rfl, hread⟩ | ⟨-, rfl, rfl⟩
  · have hstrict : f.type.body.read .accept body = some (f, rest) := by
      cases p with
      | accept => exact hread
      | reject => exact f.type.body.read_of_strict .accept hread
    rcases FieldType.read_body_cases hstrict with hstrict | ⟨rfl, -⟩
    · rw [f.type.body.write_of_read hstrict, List.length_cons, List.length_append]
      omega
    · exact Nat.succ_pos _
  · cases f <;> exact Nat.succ_pos _

theorem readField_strict (h : readField .accept bs = some (f, rest)) :
    readField .reject bs = some (f, rest) ∨ (rest = [] ∧ f.bytes = [f.type.tag, 0]) := by
  rcases readField_cases h with ⟨hplain, body, rfl, hread⟩ | ⟨hpadding, rfl, rfl⟩
  · rw [readField_tag _ hplain.type_ne, bytes_plain hplain.type_ne]
    rcases FieldType.read_body_cases hread with hstrict | ⟨hrest, hwrite⟩
    · exact .inl hstrict
    · exact .inr ⟨hrest, by rw [hwrite]⟩
  · exact .inl (hpadding.readField_bytes .reject)

theorem bytes_of_readField (h : readField .reject bs = some (f, rest)) :
    bs = f.bytes ++ rest := by
  rcases readField_cases h with ⟨hplain, body, rfl, hread⟩ | ⟨-, rfl, rfl⟩
  · rw [bytes_plain hplain.type_ne, List.cons_append, ← f.type.body.write_of_read hread]
  · rw [List.append_nil]

abbrev Accepts (p : AtEnd) (txExtra : Bytes) (fields : List TxExtraField) (rest : Bytes) : Prop :=
  Reads (readField p) txExtra fields rest

theorem readTxExtra_eq_iff :
    readTxExtra p txExtra = (fields, []) ↔ Accepts p txExtra fields [] :=
  readRecords_eq_iff (fun h => length_readField h) le_rfl

theorem parseTxExtra_eq_iff :
    parseTxExtra txExtra = (true, fields) ↔ Accepts .accept txExtra fields [] := by
  rw [← readTxExtra_eq_iff, parseTxExtra, Prod.mk.injEq, Prod.ext_iff, List.isEmpty_iff, and_comm]

theorem accepts_plain (h : ∀ f ∈ fields, Plain f) (p : AtEnd) (rest : Bytes) :
    Accepts p (fields.flatMap TxExtraField.bytes ++ rest) fields rest := by
  induction fields with
  | nil => exact .nil rest
  | cons f fields ih =>
    rw [List.flatMap_cons, List.append_assoc]
    have hf := (h f List.mem_cons_self).readField_bytes p (fields.flatMap TxExtraField.bytes ++ rest)
    exact .cons hf (ih fun g hg => h g (List.mem_cons_of_mem _ hg))

def Readable (fields : List TxExtraField) : Prop :=
  ∃ plain pad, fields = plain ++ pad ∧ (∀ f ∈ plain, Plain f) ∧ (∀ f ∈ pad, IsPadding f) ∧ pad.length ≤ 1

theorem Readable.accepts (h : Readable fields) (p : AtEnd) :
    Accepts p (fields.flatMap TxExtraField.bytes) fields [] := by
  obtain ⟨plain, pad, rfl, hplain, hpad, hlength⟩ := h
  rw [List.flatMap_append]
  refine (accepts_plain hplain p _).append ?_
  rcases pad with _ | ⟨f, _ | ⟨g, pad⟩⟩
  · exact .nil _
  · rw [List.flatMap_singleton, reads_singleton]
    exact (hpad f List.mem_cons_self).readField_bytes p
  · simp at hlength

theorem Readable.cons {f : TxExtraField} {fields : List TxExtraField} (hf : Plain f) (h : Readable fields) :
    Readable (f :: fields) := by
  obtain ⟨plain, pad, rfl, hplain, hpad, hlength⟩ := h
  exact ⟨f :: plain, pad, rfl, List.forall_mem_cons.mpr ⟨hf, hplain⟩, hpad, hlength⟩

theorem Readable.singleton_padding (hf : IsPadding f) : Readable [f] :=
  ⟨[], [f], rfl, List.forall_mem_nil _, List.forall_mem_singleton.mpr hf, le_rfl⟩

theorem accepts_nil (h : Accepts p [] fields rest) : fields = [] := by
  cases h with
  | nil => rfl
  | cons hf _ => simp [readField] at hf

theorem Accepts.readable
    (h : Accepts p txExtra fields rest) : Readable fields := by
  induction h with
  | nil => exact ⟨[], [], rfl, List.forall_mem_nil _, List.forall_mem_nil _, Nat.zero_le _⟩
  | cons hf hs ih =>
    rcases readField_cases hf with ⟨hplain, -⟩ | ⟨hpadding, -, rfl⟩
    · exact ih.cons hplain
    · rw [accepts_nil hs]
      exact .singleton_padding hpadding

theorem Accepts.of_rest (h : Accepts .accept txExtra fields rest)
    (hrest : rest ≠ []) : txExtra = fields.flatMap TxExtraField.bytes ++ rest ∧ ∀ f ∈ fields, Plain f := by
  induction h with
  | nil => exact ⟨rfl, List.forall_mem_nil _⟩
  | cons hf hs ih =>
    obtain ⟨rfl, hplain⟩ := ih hrest
    have hmid : ∀ l : Bytes, l ++ _ ≠ [] := fun l => List.append_ne_nil_of_right_ne_nil l hrest
    rcases readField_strict hf with hstrict | ⟨hnil, -⟩
    · rcases readField_cases hf with ⟨hfplain, -⟩ | ⟨-, -, hnil⟩
      · rw [bytes_of_readField hstrict, List.flatMap_cons, List.append_assoc]
        exact ⟨rfl, List.forall_mem_cons.mpr ⟨hfplain, hplain⟩⟩
      · exact absurd hnil (hmid _)
    · exact absurd hnil (hmid _)

def extraComplete (txExtra : Bytes) : Bool := (readTxExtra .reject txExtra).2.isEmpty

theorem extraComplete_iff : extraComplete txExtra = true ↔ ∃ fields, Accepts .reject txExtra fields [] := by
  simp only [← readTxExtra_eq_iff, Prod.ext_iff, extraComplete, List.isEmpty_iff]
  constructor
  · intro h
    exact ⟨_, rfl, h⟩
  · rintro ⟨-, -, h⟩
    exact h

theorem Accepts.bytes (h : Accepts .reject txExtra fields rest) :
    txExtra = fields.flatMap TxExtraField.bytes ++ rest := by
  induction h with
  | nil => rfl
  | cons hf hs ih => rw [bytes_of_readField hf, ih, List.flatMap_cons, List.append_assoc]

theorem Accepts.fields_unique {fields' : List TxExtraField}
    (h : Accepts p txExtra fields []) (h' : Accepts p txExtra fields' []) : fields = fields' := by
  rw [← readTxExtra_eq_iff] at h h'
  rw [h] at h'
  exact (Prod.mk.inj h').1

theorem Accepts.complete_iff (h : Accepts .accept txExtra fields []) :
    extraComplete txExtra = true ↔ txExtra = fields.flatMap TxExtraField.bytes := by
  rw [extraComplete_iff]
  constructor
  · rintro ⟨fields', h'⟩
    have hbytes := h'.bytes
    rw [List.append_nil] at hbytes
    have haccept := h'.readable.accepts .accept
    rw [← hbytes] at haccept
    rw [h.fields_unique haccept]
    exact hbytes
  · intro hbytes
    have hreject := h.readable.accepts .reject
    rw [← hbytes] at hreject
    exact ⟨fields, hreject⟩

theorem Accepts.bytes_of_append {tail : Bytes} {t : UInt8} (ht : t ≠ 0)
    (h : Accepts .accept txExtra fields []) (happend : Accepts .accept (txExtra ++ t :: tail) (fields ++ [f]) []) :
    txExtra = fields.flatMap TxExtraField.bytes := by
  obtain ⟨mid, hfields, hlast⟩ := happend.exists_of_append
  rw [reads_singleton] at hlast
  have hmid : mid ≠ [] := by
    rintro rfl
    simp [readField] at hlast
  obtain ⟨hbytes, hplain⟩ := Accepts.of_rest hfields hmid
  rcases List.append_eq_append_iff.mp hbytes with ⟨y, hw, hy⟩ | ⟨y, hw, -⟩
  · rcases List.eq_nil_or_concat' fields with rfl | ⟨init, g, rfl⟩
    · exact (List.append_eq_nil_iff.mp hw.symm).1
    · -- the bytes of the last field are those that were read, and then `y`
      obtain ⟨m, hinit, hg⟩ := h.exists_of_append
      rw [reads_singleton] at hg
      have hm : m ≠ [] := by
        rintro rfl
        simp [readField] at hg
      obtain ⟨hm', -⟩ := Accepts.of_rest hinit hm
      rw [hm'] at hw ⊢
      rw [List.flatMap_append, List.flatMap_singleton, List.append_assoc, List.append_cancel_left_eq] at hw
      rw [List.flatMap_append, List.flatMap_singleton, List.append_cancel_left_eq, hw]
      rcases readField_strict hg with hstrict | ⟨-, hcut⟩
      · have hmg := bytes_of_readField hstrict
        rw [List.append_nil] at hmg
        rw [← hw, ← hmg]
      · rcases y with _ | ⟨b, y⟩
        · rw [List.append_nil]
        · rcases m with _ | ⟨c, m⟩
          · exact absurd rfl hm
          · rw [hcut, List.cons_append, List.cons.injEq] at hw
            rcases List.singleton_eq_append_iff.mp hw.2 with ⟨-, hzero⟩ | ⟨-, hnil⟩
            · rw [(List.cons.inj hzero).1] at hy
              exact absurd (List.cons.inj hy).1 ht
            · exact absurd hnil (List.cons_ne_nil b y)
  · have hy := accepts_plain hplain .accept y
    rw [← hw] at hy
    rw [← h.rest_unique hy, List.append_nil] at hw
    exact hw

theorem accepts_append_iff
    (h : Accepts .accept txExtra fields []) (hf : Plain f) (htag : f.type.tag ≠ 0) :
    Accepts .accept (txExtra ++ f.bytes) (fields ++ [f]) [] ↔
      extraComplete txExtra = true ∧ ∀ g ∈ fields, g.type ≠ .padding := by
  rw [h.complete_iff]
  constructor
  · intro happend
    obtain ⟨mid, hfields, hlast⟩ := happend.exists_of_append
    rw [reads_singleton] at hlast
    have hmid : mid ≠ [] := by
      rintro rfl
      simp [readField] at hlast
    refine ⟨?_, fun g hg => ((Accepts.of_rest hfields hmid).2 g hg).type_ne⟩
    rw [bytes_plain hf.type_ne] at happend
    exact h.bytes_of_append htag happend
  · rintro ⟨hbytes, hpadding⟩
    obtain ⟨plain, pad, rfl, hplain, hpad, -⟩ := h.readable
    have hnil : pad = [] := by
      rw [List.eq_nil_iff_forall_not_mem]
      intro g hg
      obtain ⟨size, -, -, rfl⟩ := (hpad g hg)
      exact hpadding _ (List.mem_append_right _ hg) rfl
    subst hnil
    rw [List.append_nil] at hbytes ⊢
    rw [hbytes]
    refine (accepts_plain hplain .accept _).append (reads_singleton.mpr ?_)
    have hread := hf.readField_bytes .accept []
    rwa [List.append_nil] at hread

theorem filter_eraseP_self {α : Type} (q : α → Bool) (l : List α) : (l.eraseP q).filter q = (l.filter q).tail := by
  induction l with
  | nil => rfl
  | cons a l ih =>
    cases ha : q a with
    | true => simp [ha]
    | false => simp [ha, ih]

theorem filter_eraseP_not {α : Type} (q : α → Bool) (l : List α) :
    ((l.eraseP q).filter fun a => !q a) = l.filter fun a => !q a := by
  induction l with
  | nil => rfl
  | cons a l ih =>
    cases ha : q a with
    | true => simp [ha]
    | false => simp [ha, ih]

theorem pick_eq {type : FieldType} (hvalid : ∀ f ∈ fields, f.valid = true) {fuel : ℕ}
    (hfuel : fields.length ≤ fuel) :
    pick type fuel fields =
      some ((fields.filter fun f => f.type = type).flatMap TxExtraField.bytes, fields.filter fun f => !(f.type = type)) := by
  induction fuel generalizing fields with
  | zero =>
    rw [List.length_eq_zero_iff.mp (Nat.le_zero.mp hfuel)]
    rfl
  | succ fuel ih =>
    rw [pick]
    cases hfind : fields.find? fun f => f.type = type with
    | none =>
      have hnone : ∀ f ∈ fields, ¬f.type = type := by simpa using hfind
      rw [List.filter_eq_nil_iff.mpr (by simpa using hnone), List.filter_eq_self.mpr (by simpa using hnone)]
      rfl
    | some f =>
      have hmem := List.mem_of_find?_eq_some hfind
      have hhead : f :: (fields.filter fun f => f.type = type).tail = fields.filter fun f => f.type = type :=
        List.cons_head?_tail (List.head?_filter.trans hfind)
      have hlength := List.length_eraseP_of_mem hmem (List.find?_some hfind)
      have hleft : ∀ g ∈ fields.eraseP fun f => f.type = type, g.valid = true :=
        fun g hg => hvalid g (List.mem_of_mem_eraseP hg)
      have herase := ih hleft (by omega)
      rw [filter_eraseP_self, filter_eraseP_not] at herase
      rw [← hhead, List.flatMap_cons]
      simp only [writeField, if_pos (hvalid f hmem), herase, Option.bind_eq_bind, Option.bind_some]
      rfl

def sortedFields (fields : List TxExtraField) : List TxExtraField :=
  sortOrder.flatMap fun type => fields.filter fun f => f.type = type

theorem pickAll_eq {types : List FieldType} (htypes : types.Nodup)
    (hvalid : ∀ f ∈ fields, f.valid = true) :
    pickAll types fields =
      some ((types.flatMap fun type => fields.filter fun f => f.type = type).flatMap TxExtraField.bytes,
        fields.filter fun f => f.type ∉ types) := by
  induction types generalizing fields with
  | nil => simp [pickAll]
  | cons type types ih =>
    obtain ⟨hnot, hnodup⟩ := List.nodup_cons.mp htypes
    have hleft : ∀ f ∈ fields.filter fun f => !(f.type = type), f.valid = true :=
      fun f hf => hvalid f (List.mem_of_mem_filter hf)
    have hothers : ∀ other ∈ types, ((fields.filter fun f => !(f.type = type)).filter fun f => f.type = other) =
        fields.filter fun f => f.type = other := by
      intro other hother
      rw [List.filter_filter]
      refine List.filter_congr fun f _ => ?_
      by_cases hf : f.type = other
      · have hne : ¬other = type := fun he => hnot (he ▸ hother)
        simp [hf, hne]
      · simp [hf]
    have hrest : ((fields.filter fun f => !(f.type = type)).filter fun f => f.type ∉ types) =
        fields.filter fun f => f.type ∉ type :: types := by
      rw [List.filter_filter]
      refine List.filter_congr fun f _ => ?_
      by_cases hf : f.type = type <;> simp [hf]
    rw [pickAll, pick_eq hvalid le_rfl]
    simp only [Option.bind_eq_bind, Option.bind_some, ih hnodup hleft, hrest, List.flatMap_cons, List.flatMap_append,
      List.flatMap_congr hothers]
    rfl

theorem filter_sortedFields (type : FieldType) (fields : List TxExtraField) :
    ((sortedFields fields).filter fun f => f.type = type) = fields.filter fun f => f.type = type := by
  have hsame : ∀ other, ((fields.filter fun f => f.type = other).filter fun f => f.type = type) =
      if other = type then fields.filter fun f => f.type = type else [] := by
    intro other
    split_ifs with he
    · subst he
      rw [List.filter_filter]
      simp
    · rw [List.filter_filter, List.filter_eq_nil_iff]
      intro f _ hf
      simp only [Bool.and_eq_true, decide_eq_true_eq] at hf
      exact he (hf.2.symm.trans hf.1)
  cases type <;> simp [sortedFields, sortOrder, hsame]

theorem sortedFields_perm (fields : List TxExtraField) : (sortedFields fields).Perm fields := by
  rw [List.perm_iff_count]
  intro f
  have hcount : ∀ l : List TxExtraField, l.count f = (l.filter fun g => g.type = f.type).count f := by
    intro l
    rw [List.count_filter (by simp)]
  rw [hcount, filter_sortedFields, ← hcount]

theorem sortedFields_sortedFields (fields : List TxExtraField) : sortedFields (sortedFields fields) = sortedFields fields := by
  conv_lhs => rw [sortedFields]
  simp only [filter_sortedFields]
  rfl

theorem Readable.plain_of_mem (h : Readable fields) (hf : f ∈ fields)
    (htype : f.type ≠ .padding) : Plain f := by
  obtain ⟨plain, pad, rfl, hplain, hpad, -⟩ := h
  rcases List.mem_append.mp hf with hf | hf
  · exact hplain f hf
  · obtain ⟨size, -, -, rfl⟩ := (hpad f hf)
    exact absurd rfl htype

theorem Readable.isPadding_of_mem (h : Readable fields) (hf : f ∈ fields)
    (htype : f.type = .padding) : IsPadding f := by
  obtain ⟨plain, pad, rfl, hplain, hpad, -⟩ := h
  rcases List.mem_append.mp hf with hf | hf
  · exact absurd htype (hplain f hf).type_ne
  · exact hpad f hf

theorem Readable.valid (h : Readable fields) : ∀ f ∈ fields, f.valid = true := by
  intro f hf
  by_cases htype : f.type = .padding
  · obtain ⟨size, -, hle, rfl⟩ := (h.isPadding_of_mem hf htype)
    exact decide_eq_true hle
  · exact (h.plain_of_mem hf htype).writable

theorem Readable.length_padding (h : Readable fields) :
    (fields.filter fun f => f.type = .padding).length ≤ 1 := by
  obtain ⟨plain, pad, rfl, hplain, -, hlength⟩ := h
  have hnone : (plain.filter fun f => f.type = .padding) = [] := by
    rw [List.filter_eq_nil_iff]
    intro f hf htype
    exact (hplain f hf).type_ne (of_decide_eq_true htype)
  rw [List.filter_append, hnone, List.nil_append]
  exact (List.length_filter_le _ _).trans hlength

theorem Readable.filter (h : Readable fields) (keep : TxExtraField → Bool) :
    Readable (fields.filter keep) := by
  obtain ⟨plain, pad, rfl, hplain, hpad, hlength⟩ := h
  refine ⟨plain.filter keep, pad.filter keep, List.filter_append .., ?_, ?_, (List.length_filter_le _ _).trans hlength⟩
  · exact fun f hf => hplain f (List.mem_of_mem_filter hf)
  · exact fun f hf => hpad f (List.mem_of_mem_filter hf)

theorem Readable.sorted (h : Readable fields) : Readable (sortedFields fields) := by
  have horder : sortOrder = sortOrder.dropLast ++ [.padding] := rfl
  refine ⟨sortOrder.dropLast.flatMap fun type => fields.filter fun f => f.type = type,
    fields.filter fun f => f.type = .padding, ?_, ?_, ?_, h.length_padding⟩
  · rw [sortedFields, horder, List.flatMap_append, List.flatMap_singleton]
    rfl
  · intro f hf
    obtain ⟨type, htype, hf⟩ := List.mem_flatMap.mp hf
    obtain ⟨hf, he⟩ := List.mem_filter.mp hf
    have hne : ∀ type ∈ sortOrder.dropLast, type ≠ .padding := by decide
    refine h.plain_of_mem hf ?_
    rw [of_decide_eq_true he]
    exact hne type htype
  · intro f hf
    obtain ⟨hf, he⟩ := List.mem_filter.mp hf
    exact h.isPadding_of_mem hf (of_decide_eq_true he)

theorem sortTxExtra_eq (h : Accepts .accept txExtra fields [])
    (allowPartial : Bool) : sortTxExtra txExtra allowPartial = some ((sortedFields fields).flatMap TxExtraField.bytes) := by
  have hnodup : sortOrder.Nodup := by decide
  have hall : ∀ type : FieldType, type ∈ sortOrder := by
    intro type
    cases type <;> decide
  have hleft : (fields.filter fun f => f.type ∉ sortOrder) = [] := by
    simp [hall]
  rw [sortTxExtra]
  split_ifs with hnil
  · subst hnil
    rw [accepts_nil h]
    rfl
  · rw [readTxExtra_eq_iff.mpr h]
    simp only [pickAll_eq hnodup h.readable.valid, hleft]
    simp [sortedFields]

theorem flatMap_writeField (h : ∀ f ∈ fields, f.valid = true) :
    (fields.flatMap fun f => (writeField f).getD []) = fields.flatMap TxExtraField.bytes :=
  List.flatMap_congr fun f hf => by rw [writeField, if_pos (h f hf), Option.getD_some]

theorem removeFieldFromTxExtra_eq (h : Accepts .accept txExtra fields [])
    (type : FieldType) :
    removeFieldFromTxExtra txExtra type = some ((fields.filter fun f => f.type ≠ type).flatMap TxExtraField.bytes) := by
  rw [removeFieldFromTxExtra, readTxExtra_eq_iff.mpr h]
  exact congrArg some (flatMap_writeField (h.readable.filter _).valid)

structure AddsOneField (txExtra : Bytes) (fields : List TxExtraField) : Prop where
  txPubKey : ∀ key, parseTxExtra (addTxPubKeyToExtra txExtra key) = (true, fields ++ [.pubKey key])
  additionalTxPubKeys : ∀ keys, keys.length < 2 ^ 64 → ∃ added, addAdditionalTxPubKeysToExtra txExtra keys = some added ∧
    parseTxExtra added = (true, fields ++ [.additionalPubKeys keys])
  extraNonce : ∀ nonce, nonce.length ≤ txExtraNonceMaxCount → ∃ added, addExtraNonceToTxExtra txExtra nonce = some added ∧
    parseTxExtra added = (true, fields ++ [.nonce nonce])

theorem plain_pubKey (key : PublicKey) : Plain (.pubKey key) := ⟨by simp [TxExtraField.type], rfl⟩

theorem plain_additionalPubKeys {keys : List PublicKey} (h : keys.length < 2 ^ 64) : Plain (.additionalPubKeys keys) :=
  ⟨by simp [TxExtraField.type], (valid_container (blob 32) keys).mpr ⟨h, fun _ _ => rfl⟩⟩

theorem plain_nonce {nonce : Bytes} (h : nonce.length ≤ txExtraNonceMaxCount) : Plain (.nonce nonce) := by
  refine ⟨by simp [TxExtraField.type], Bool.and_eq_true_iff.mpr ⟨(valid_byteString nonce).mpr ?_, decide_eq_true h⟩⟩
  exact h.trans_lt (by decide)

theorem bytes_nonce (nonce : Bytes) : (TxExtraField.nonce nonce).bytes = txExtraNonce :: (writeVarint nonce.length ++ nonce) :=
  congrArg (txExtraNonce :: ·) (write_byteString nonce)

theorem addsOneField_iff (h : Accepts .accept txExtra fields []) :
    AddsOneField txExtra fields ↔ extraComplete txExtra = true ∧ ∀ f ∈ fields, f.type ≠ .padding := by
  constructor
  · intro hadds
    have hkey := hadds.txPubKey (Blob.zero 32)
    rw [parseTxExtra_eq_iff] at hkey
    exact (accepts_append_iff h (plain_pubKey (Blob.zero 32)) (by decide : txExtraTagPubkey ≠ 0)).mp hkey
  · intro hcond
    refine ⟨fun key => ?_, fun keys hkeys => ?_, fun nonce hnonce => ?_⟩
    · rw [parseTxExtra_eq_iff]
      exact (accepts_append_iff h (plain_pubKey key) (by decide : txExtraTagPubkey ≠ 0)).mpr hcond
    · have hplain := plain_additionalPubKeys hkeys
      refine ⟨txExtra ++ (TxExtraField.additionalPubKeys keys).bytes, ?_, ?_⟩
      · rw [addAdditionalTxPubKeysToExtra, writeField, if_pos hplain.writable, Option.map_some]
      · rw [parseTxExtra_eq_iff]
        exact (accepts_append_iff h hplain (by decide : (0x04 : UInt8) ≠ 0)).mpr hcond
    · refine ⟨txExtra ++ (TxExtraField.nonce nonce).bytes, ?_, ?_⟩
      · rw [addExtraNonceToTxExtra, if_pos hnonce, bytes_nonce]
      · rw [parseTxExtra_eq_iff]
        exact (accepts_append_iff h (plain_nonce hnonce) (by decide : txExtraNonce ≠ 0)).mpr hcond

structure SortKeeps (fields : List TxExtraField) (sorted : Bytes) : Prop where
  sameFields : ∃ fields', parseTxExtra sorted = (true, fields') ∧ fields'.Perm fields ∧
    ∀ type, (fields'.filter fun f => f.type = type) = fields.filter fun f => f.type = type
  idempotent : sortTxExtra sorted false = some sorted

theorem sortKeeps (h : Readable fields) :
    SortKeeps fields ((sortedFields fields).flatMap TxExtraField.bytes) := by
  have hsorted := h.sorted.accepts .accept
  refine ⟨⟨sortedFields fields, parseTxExtra_eq_iff.mpr hsorted, sortedFields_perm fields,
    fun type => filter_sortedFields type fields⟩, ?_⟩
  rw [sortTxExtra_eq hsorted, sortedFields_sortedFields]

theorem tx_extra_laws {txExtra : Bytes} {fields : List TxExtraField} (h : parseTxExtra txExtra = (true, fields)) :
    (AddsOneField txExtra fields ↔ extraComplete txExtra = true ∧ ∀ f ∈ fields, f.type ≠ .padding) ∧
    (∃ sorted, sortTxExtra txExtra false = some sorted ∧ SortKeeps fields sorted ∧
      (extraComplete txExtra = true → sorted.length = txExtra.length)) ∧
    ∀ type, ∃ left, removeFieldFromTxExtra txExtra type = some left ∧
      parseTxExtra left = (true, fields.filter fun f => f.type ≠ type) := by
  rw [parseTxExtra_eq_iff] at h
  refine ⟨addsOneField_iff h, ⟨_, sortTxExtra_eq h false, sortKeeps h.readable, fun hcomplete => ?_⟩, fun type => ?_⟩
  · conv_rhs => rw [h.complete_iff.mp hcomplete]
    exact ((sortedFields_perm fields).flatMap_right _).length_eq
  · refine ⟨_, removeFieldFromTxExtra_eq h type, ?_⟩
    rw [parseTxExtra_eq_iff]
    exact (h.readable.filter _).accepts .accept

theorem tx_extra_laws_nonce : parseTxExtra [2, 1, 7] = (true, [.nonce [7]]) ∧ AddsOneField [2, 1, 7] [.nonce [7]] :=
  ⟨by decide, (tx_extra_laws (by decide)).1.mpr (by decide)⟩

theorem cut_off_extra :
    parseTxExtra [2] = (true, [.nonce []]) ∧ sortTxExtra [2] false = some [2, 0] ∧
      parseTxExtra (addTxPubKeyToExtra [2] (Blob.zero 32)) ≠ (true, [.nonce [], .pubKey (Blob.zero 32)]) ∧
      parseTxExtra [0] = (true, [.padding 1]) ∧ (parseTxExtra (addTxPubKeyToExtra [0] (Blob.zero 32))).1 = false := by
  decide +kernel

end Velkavo.Cryptonote
