import Velkavo.ByteCodec.Text

/-! The digest authentication of the HTTP server, and what it lets through more than once. -/

namespace Velkavo.Epee.Http

open ByteCodec

section

def base64Chars : Bytes := ascii "ABCDEFGHIJKLMNOPQRSTUVWXYZabcdefghijklmnopqrstuvwxyz0123456789+/"

def base64Char (n : UInt8) : UInt8 := base64Chars.getD n.toNat 0

def base64Group (a b c : UInt8) : Bytes :=
  [base64Char ((a &&& 0xfc) >>> 2), base64Char (((a &&& 0x03) <<< 4) + ((b &&& 0xf0) >>> 4)),
    base64Char (((b &&& 0x0f) <<< 2) + ((c &&& 0xc0) >>> 6)), base64Char (c &&& 0x3f)]

def base64Encode : Bytes → Bytes
  | a :: b :: c :: rest => base64Group a b c ++ base64Encode rest
  | [a, b] => (base64Group a b 0).take 3 ++ [0x3d]
  | [a] => (base64Group a 0 0).take 2 ++ [0x3d, 0x3d]
  | [] => []

theorem base64Encode_ne_nil {s : Bytes} (h : s ≠ []) : base64Encode s ≠ [] := by
  match s with
  | [] => exact absurd rfl h
  | [_] => exact List.cons_ne_nil _ _
  | [_, _] => exact List.cons_ne_nil _ _
  | _ :: _ :: _ :: _ => exact List.cons_ne_nil _ _

end

section

def asciiTolower (b : UInt8) : UInt8 := if 65 ≤ b ∧ b ≤ 90 then b + 32 else b

def iequals (s t : Bytes) : Bool := s.map asciiTolower = t.map asciiTolower

def istartsWith (s start : Bytes) : Bool := start.map asciiTolower <+: s.map asciiTolower

def iendsWith (s suffix : Bytes) : Bool := suffix.map asciiTolower <:+ s.map asciiTolower

def comma : UInt8 := 44

def equalSign : UInt8 := 61

def quote : UInt8 := 34

def backslash : UInt8 := 92

def skipWhitespace (s : Bytes) : Bytes := s.dropWhile isSpace

inductive Field
  | algorithm
  | cnonce
  | nc
  | nonce
  | qop
  | response
  | uri
  | username
  | otherString
  | otherToken

def fieldTable : List (Bytes × Field) :=
  [(ascii "algorithm", .algorithm), (ascii "cnonce", .cnonce), (ascii "domain", .otherString), (ascii "nc", .nc),
    (ascii "nonce", .nonce), (ascii "opaque", .otherString), (ascii "qop", .qop), (ascii "realm", .otherString),
    (ascii "response", .response), (ascii "stale", .otherToken), (ascii "uri", .uri), (ascii "username", .username)]

structure AuthMessage where
  algorithm : Bytes := []
  cnonce : Bytes := []
  nc : Bytes := []
  nonce : Bytes := []
  qop : Bytes := []
  response : Bytes := []
  uri : Bytes := []
  username : Bytes := []

def quotedBody : Bytes → Bytes × Bytes
  | [] => ([], [])
  | [b] => if b < 128 ∧ b ≠ quote then ([b], []) else ([], [b])
  | b :: c :: rest =>
    if b = backslash ∧ c = quote then
      let (body, rest) := quotedBody rest
      (b :: c :: body, rest)
    else if b < 128 ∧ b ≠ quote then
      let (body, rest) := quotedBody (c :: rest)
      (b :: body, rest)
    else ([], b :: c :: rest)

def quoted (body : Bytes → Bytes × Bytes) : Bytes → Option (Bytes × Bytes)
  | [] => none
  | b :: rest =>
    if b = quote then
      match body rest with
      | (_ :: _, []) => none
      | ([], _) => none
      | (inside, close :: rest) => if close = quote then some (inside, rest) else none
    else none

def quotedString : Bytes → Option (Bytes × Bytes) := quoted quotedBody

def isTokenChar (b : UInt8) : Bool := 33 ≤ b && b ≤ 126 && b ∉ ascii "()<>@,;:\\\"/[]?=\x7b\x7d"

def token (s : Bytes) : Option (Bytes × Bytes) :=
  if s.takeWhile isTokenChar ≠ [] then some (s.takeWhile isTokenChar, s.dropWhile isTokenChar) else quotedString s

def parseNc (s : Bytes) : Option (Bytes × Bytes) :=
  if (s.take 8).length = 8 ∧ (s.take 8).all (fun b => (hexDigit b).isSome) then some (s.take 8, s.drop 8) else none

def hexPairs : Bytes → Bytes × Bytes
  | a :: b :: rest =>
    if (hexDigit a).isSome ∧ (hexDigit b).isSome then
      let (pairs, rest) := hexPairs rest
      (a :: b :: pairs, rest)
    else ([], a :: b :: rest)
  | s => ([], s)

def parseResponse : Bytes → Option (Bytes × Bytes) := quoted hexPairs

def AuthMessage.set (info : AuthMessage) (value : Bytes) : Field → AuthMessage
  | .algorithm => { info with algorithm := value }
  | .cnonce => { info with cnonce := value }
  | .nc => { info with nc := value }
  | .nonce => { info with nonce := value }
  | .qop => { info with qop := value }
  | .response => { info with response := value }
  | .uri => { info with uri := value }
  | .username => { info with username := value }
  | .otherString => info
  | .otherToken => info

def parseValue : Field → Bytes → Option (Bytes × Bytes)
  | .algorithm | .qop | .otherToken => token
  | .cnonce | .nonce | .uri | .username | .otherString => quotedString
  | .nc => parseNc
  | .response => parseResponse

def parseName (s : Bytes) : Option (Field × Bytes) :=
  match fieldTable.find? fun entry => istartsWith s entry.1 with
  | none => none
  | some (name, field) =>
    match skipWhitespace (s.drop name.length) with
    | [] => none
    | b :: rest => if b = equalSign then some (field, skipWhitespace rest) else none

def parseFields : ℕ → Bytes → AuthMessage → Option AuthMessage
  | 0, _, _ => none
  | fuel + 1, s, info => do
    let (field, s) ← parseName s
    let (value, s) ← parseValue field s
    let info := info.set value field
    match skipWhitespace s with
    | [] => some info
    | b :: rest => if b = comma then parseFields fuel (skipWhitespace rest) info else none

def parse (request : Bytes) : Option AuthMessage :=
  let s := skipWhitespace request
  if istartsWith s (ascii "digest") then
    let s := skipWhitespace (s.drop 6)
    parseFields (s.length + 1) s {}
  else none

end

structure Login where
  username : Bytes
  password : Bytes

structure Session where
  credentials : Login
  nonce : Bytes
  counter : UInt32

def authRealm : Bytes := ascii "velkavo-rpc"

def colon : Bytes := ascii ":"

def generateA1 (md5 : Bytes → Bytes) (creds : Login) (realm : Bytes) : Bytes :=
  md5 (creds.username ++ colon ++ realm ++ colon ++ creds.password)

def hasValidResponse (md5 : Bytes → Bytes) (request : AuthMessage) (user : Session) (method : Bytes) : Bool :=
  if istartsWith request.algorithm (ascii "MD5") || request.algorithm.isEmpty then
    let key := generateA1 md5 user.credentials authRealm
    let key := if iendsWith request.algorithm (ascii "-sess") then
      md5 (key ++ colon ++ request.nonce ++ colon ++ request.cnonce) else key
    let auth := md5 (method ++ colon ++ request.uri)
    if request.qop.isEmpty then iequals request.response (md5 (key ++ colon ++ request.nonce ++ colon ++ auth))
    else if iequals (ascii "auth") request.qop then
      iequals request.response (md5 (key ++ colon ++ request.nonce ++ colon ++ request.nc ++ colon ++ request.cnonce ++
        colon ++ request.qop ++ colon ++ auth))
    else false
  else false

def AuthMessage.counter (request : AuthMessage) : Option UInt32 :=
  if request.nc.isEmpty then none
  else some (UInt32.ofNat (request.nc.foldl (fun n b => 16 * n + (hexDigit b).getD 0) 0))

inductive Status
  | kFail
  | kStale
  | kPass
  deriving DecidableEq

def verify (md5 : Bytes → Bytes) (method request : Bytes) (user : Session) : Status :=
  match parse request with
  | none => .kFail
  | some parsed =>
    if parsed.username = user.credentials.username ∧ hasValidResponse md5 parsed user method then
      if parsed.nonce = user.nonce ∧
          (user.counter = 1 ∨ (parsed.qop ≠ [] ∧ parsed.counter = some user.counter)) then .kPass
      else .kStale
    else .kFail

structure RequestInfo where
  method : Bytes
  fields : List (Bytes × Bytes)

structure ResponseInfo where
  responseCode : ℕ
  responseComment : Bytes
  mimeType : Bytes
  body : Bytes
  additionalFields : List (Bytes × Bytes)

def quotedText (s : Bytes) : Bytes := quote :: (s ++ [quote])

def addField (name value : Bytes) (s : Bytes) : Bytes := s ++ comma :: (name ++ equalSign :: value)

def addChallenge (nonce : Bytes) (isStale : Bool) (algorithm : Bytes) : Bytes × Bytes :=
  (ascii "WWW-authenticate",
    addField (ascii "stale") (ascii (if isStale then "true" else "false"))
      (addField (ascii "nonce") (quotedText nonce)
        (addField (ascii "realm") (quotedText authRealm)
          (addField (ascii "algorithm") algorithm (ascii "Digest qop=\"auth\"")))))

def createDigestResponse (nonce : Bytes) (isStale : Bool) : ResponseInfo where
  responseCode := 401
  responseComment := ascii "Unauthorized"
  mimeType := ascii "text/html"
  body := ascii ("<html><head><title>Unauthorized Access</title></head>" ++
    "<body><h1>401 Unauthorized</h1></body></html>")
  additionalFields := [addChallenge nonce isStale (ascii "MD5"), addChallenge nonce isStale (ascii "MD5-sess")]

structure ServerAuth where
  user : Session
  draws : ℕ

def authorization (request : RequestInfo) : Option Bytes :=
  (request.fields.find? fun field => iequals (ascii "Authorization") field.1).map Prod.snd

def challenge (rng : ℕ → Blob 16) (s : ServerAuth) (isStale : Bool) : ServerAuth × Option ResponseInfo :=
  let nonce := base64Encode (rng s.draws).bytes
  (⟨{ s.user with counter := 0, nonce := nonce }, s.draws + 1⟩, some (createDigestResponse nonce isStale))

def doGetResponse (md5 : Bytes → Bytes) (rng : ℕ → Blob 16) (s : ServerAuth) (request : RequestInfo) :
    ServerAuth × Option ResponseInfo :=
  match authorization request with
  | none => challenge rng s false
  | some auth =>
    let user := { s.user with counter := s.user.counter + 1 }
    match verify md5 request.method auth user with
    | .kPass => (⟨user, s.draws⟩, none)
    | .kStale => challenge rng ⟨user, s.draws⟩ true
    | .kFail => challenge rng ⟨user, s.draws⟩ false

section

variable (md5 : Bytes → Bytes) (rng : ℕ → Blob 16)

def acceptedValue (s : ServerAuth) (request : RequestInfo) : Option (Bytes × Bytes) :=
  if (doGetResponse md5 rng s request).2.isNone then (authorization request).map fun auth => (s.user.nonce, auth) else none

def accepted : ServerAuth → List RequestInfo → List (Bytes × Bytes)
  | _, [] => []
  | s, request :: requests =>
    (acceptedValue md5 rng s request).toList ++ accepted (doGetResponse md5 rng s request).1 requests

def inOrder (s : ServerAuth) (request : RequestInfo) : Bool :=
  match (authorization request).bind parse with
  | none => true
  | some parsed => s.user.counter + 1 ≠ 0 && (s.user.counter ≠ 0 || parsed.qop.isEmpty || parsed.counter = some 1)

def AllInOrder : ServerAuth → List RequestInfo → Prop
  | _, [] => True
  | s, request :: requests =>
    inOrder s request = true ∧ AllInOrder (doGetResponse md5 rng s request).1 requests

variable {md5 rng}

theorem verify_eq_kPass {method request : Bytes} {user : Session} (h : verify md5 method request user = .kPass) :
    ∃ parsed, parse request = some parsed ∧
      (user.counter = 1 ∨ parsed.qop ≠ [] ∧ parsed.counter = some user.counter) := by
  rw [verify] at h
  split at h
  · cases h
  · rename_i parsed hparse
    split_ifs at h with hvalid hcounter
    exact ⟨parsed, hparse, hcounter.2⟩

theorem doGetResponse_cases (md5 : Bytes → Bytes) (rng : ℕ → Blob 16) (s : ServerAuth) (request : RequestInfo) :
    (∃ auth parsed, authorization request = some auth ∧ parse auth = some parsed ∧
        (s.user.counter + 1 = 1 ∨ parsed.qop ≠ [] ∧ parsed.counter = some (s.user.counter + 1)) ∧
        doGetResponse md5 rng s request = (⟨{ s.user with counter := s.user.counter + 1 }, s.draws⟩, none)) ∨
      acceptedValue md5 rng s request = none ∧
        (doGetResponse md5 rng s request).1 =
          ⟨{ s.user with counter := 0, nonce := base64Encode (rng s.draws).bytes }, s.draws + 1⟩ := by
  cases hauth : authorization request with
  | none =>
    refine .inr ⟨?_, ?_⟩ <;> simp [acceptedValue, doGetResponse, challenge, hauth]
  | some auth =>
    cases hverify : verify md5 request.method auth { s.user with counter := s.user.counter + 1 } with
    | kPass =>
      obtain ⟨parsed, hparse, hcounter⟩ := verify_eq_kPass hverify
      exact .inl ⟨auth, parsed, rfl, hparse, hcounter, by simp [doGetResponse, hauth, hverify]⟩
    | kStale => refine .inr ⟨?_, ?_⟩ <;> simp [acceptedValue, doGetResponse, challenge, hauth, hverify]
    | kFail => refine .inr ⟨?_, ?_⟩ <;> simp [acceptedValue, doGetResponse, challenge, hauth, hverify]

def nonceAt (rng : ℕ → Blob 16) : ℕ → Bytes
  | 0 => []
  | n + 1 => base64Encode (rng n).bytes

theorem nonceAt_injOn {bound : ℕ} (h : Set.InjOn (fun n => base64Encode (rng n).bytes) (Set.Iio bound)) :
    Set.InjOn (nonceAt rng) (Set.Iic bound) := by
  have hne : ∀ n, base64Encode (rng n).bytes ≠ [] := by
    intro n
    apply base64Encode_ne_nil
    intro hnil
    have hlen := (rng n).length_eq
    rw [hnil] at hlen
    cases hlen
  intro m hm n hn hmn
  cases m with
  | zero =>
    cases n with
    | zero => rfl
    | succ n => exact absurd hmn.symm (hne n)
  | succ m =>
    cases n with
    | zero => exact absurd hmn (hne m)
    | succ n => exact congrArg Nat.succ (h hm hn hmn)

structure Accepts (rng : ℕ → Blob 16) (s : ServerAuth) (log : List (Bytes × Bytes)) : Prop where
  nonce : s.user.nonce = nonceAt rng s.draws
  nodup : log.Nodup
  drawn : ∀ e ∈ log, ∃ n ≤ s.draws, e.1 = nonceAt rng n
  fresh : s.user.counter = 0 → ∀ e ∈ log, e.1 ≠ s.user.nonce
  counted : ∀ e ∈ log, e.1 = s.user.nonce → ∃ parsed, parse e.2 = some parsed ∧
    (parsed.qop = [] ∨ ∃ k, parsed.counter = some k ∧ k ≤ s.user.counter)

theorem lt_succ_of_ne_zero {c : UInt32} (h : c + 1 ≠ 0) : c < c + 1 := by
  have hne : (c + 1).toNat ≠ 0 := fun h0 => h (UInt32.toNat_inj.mp h0)
  have hlt := c.toNat_lt
  rw [UInt32.lt_iff_toNat_lt]
  rw [UInt32.toNat_add] at hne ⊢
  change (c.toNat + 1) % 2 ^ 32 ≠ 0 at hne
  change c.toNat < (c.toNat + 1) % 2 ^ 32
  omega

theorem Accepts.step {bound : ℕ} (hrng : Set.InjOn (nonceAt rng) (Set.Iic bound)) {s : ServerAuth}
    {log : List (Bytes × Bytes)} (h : Accepts rng s log) (hdraws : s.draws < bound) {request : RequestInfo}
    (horder : inOrder s request = true) :
    Accepts rng (doGetResponse md5 rng s request).1 (log ++ (acceptedValue md5 rng s request).toList) := by
  rcases doGetResponse_cases md5 rng s request with
    ⟨auth, parsed, hauth, hparse, hcounter, hget⟩ | ⟨hnone, hget⟩
  · have hvalue : acceptedValue md5 rng s request = some (s.user.nonce, auth) := by
      rw [acceptedValue, hget, hauth]
      rfl
    rw [inOrder, hauth, Option.bind_some, hparse] at horder
    simp only [ne_eq, decide_not, Bool.and_eq_true, Bool.not_eq_true', decide_eq_false_iff_not, Bool.or_eq_true,
      decide_eq_true_iff, List.isEmpty_iff] at horder
    obtain ⟨hwrap, horder⟩ := horder
    have hlt := lt_succ_of_ne_zero hwrap
    -- a counter above 1 is the one that the request has, and the earlier ones are below it
    have hnew : (s.user.nonce, auth) ∉ log := by
      intro hmem
      by_cases hzero : s.user.counter = 0
      · exact h.fresh hzero _ hmem rfl
      · obtain ⟨parsed', hparse', hcounted⟩ := h.counted _ hmem rfl
        obtain rfl : parsed = parsed' := Option.some.inj (hparse.symm.trans hparse')
        rcases hcounter with hone | ⟨hqop, hcounter⟩
        · exact hzero (by simpa using hone)
        · rcases hcounted with hempty | ⟨k, hk, hle⟩
          · exact hqop hempty
          · obtain rfl : _ = k := Option.some.inj (hcounter.symm.trans hk)
            exact UInt32.not_le.mpr hlt hle
    rw [hvalue, hget, Option.toList_some]
    refine ⟨h.nonce, ?_, ?_, fun h0 => absurd h0 hwrap, ?_⟩
    · rw [List.nodup_append]
      refine ⟨h.nodup, List.nodup_singleton _, ?_⟩
      intro a ha b hb hab
      rw [List.mem_singleton.mp hb] at hab
      exact hnew (hab ▸ ha)
    · intro e he
      rcases List.mem_append.mp he with he | he
      · exact h.drawn e he
      · rw [List.mem_singleton.mp he]
        exact ⟨s.draws, le_rfl, h.nonce⟩
    · intro e he hnonce
      rcases List.mem_append.mp he with he | he
      · obtain ⟨parsed', hparse', hcounted⟩ := h.counted e he hnonce
        refine ⟨parsed', hparse', hcounted.imp_right ?_⟩
        rintro ⟨k, hk, hle⟩
        exact ⟨k, hk, UInt32.le_trans hle (UInt32.le_of_lt hlt)⟩
      · rw [List.mem_singleton.mp he]
        refine ⟨parsed, hparse, ?_⟩
        rcases hcounter with hone | ⟨-, hcounter⟩
        · have hzero : s.user.counter = 0 := by simpa using hone
          rcases horder with (hlater | hqop) | hfirst
          · exact absurd hzero hlater
          · exact .inl hqop
          · have hle : 1 ≤ s.user.counter + 1 := by
              rw [hone]
              exact UInt32.le_refl 1
            exact .inr ⟨1, hfirst, hle⟩
        · exact .inr ⟨_, hcounter, UInt32.le_refl _⟩
  · have hne : ∀ e ∈ log, e.1 ≠ nonceAt rng (s.draws + 1) := by
      intro e he heq
      obtain ⟨n, hn, hnonce⟩ := h.drawn e he
      have hsame := hrng (hn.trans hdraws.le) hdraws (hnonce.symm.trans heq)
      omega
    rw [hnone, hget, Option.toList_none, List.append_nil]
    refine ⟨rfl, h.nodup, ?_, fun _ => hne, fun e he hnonce => absurd hnonce (hne e he)⟩
    intro e he
    obtain ⟨n, hn, hnonce⟩ := h.drawn e he
    exact ⟨n, hn.trans (Nat.le_succ _), hnonce⟩

theorem draws_doGetResponse_le (md5 : Bytes → Bytes) (rng : ℕ → Blob 16) (s : ServerAuth)
    (request : RequestInfo) : (doGetResponse md5 rng s request).1.draws ≤ s.draws + 1 := by
  rcases doGetResponse_cases md5 rng s request with ⟨_, _, _, _, _, hget⟩ | ⟨_, hget⟩
  · rw [hget]
    exact Nat.le_succ _
  · rw [hget]

theorem Accepts.run {bound : ℕ} (hrng : Set.InjOn (nonceAt rng) (Set.Iic bound)) {s : ServerAuth}
    {log : List (Bytes × Bytes)} (h : Accepts rng s log) {requests : List RequestInfo}
    (hdraws : s.draws + requests.length ≤ bound) (horder : AllInOrder md5 rng s requests) :
    (log ++ accepted md5 rng s requests).Nodup := by
  induction requests generalizing s log with
  | nil =>
    rw [accepted, List.append_nil]
    exact h.nodup
  | cons request requests ih =>
    rw [List.length_cons] at hdraws
    have hnext := draws_doGetResponse_le md5 rng s request
    rw [accepted, ← List.append_assoc]
    exact ih (h.step hrng (by omega) horder.1) (by omega) horder.2

def ServerAuth.start (credentials : Login) : ServerAuth := ⟨⟨credentials, [], 0⟩, 0⟩

theorem accepted_nodup (md5 : Bytes → Bytes) (rng : ℕ → Blob 16) (credentials : Login) (requests : List RequestInfo)
    (hrng : Set.InjOn (fun n => base64Encode (rng n).bytes) (Set.Iio requests.length))
    (horder : AllInOrder md5 rng (.start credentials) requests) :
    (accepted md5 rng (.start credentials) requests).Nodup := by
  have hstart : Accepts rng (.start credentials) [] := ⟨rfl, List.nodup_nil, by simp, by simp, by simp⟩
  exact hstart.run (nonceAt_injOn hrng) (Nat.zero_add _).le horder

def constantDigest (_ : Bytes) : Bytes := ascii "00"

def countingRng (n : ℕ) : Blob 16 := ⟨UInt8.ofNat n :: List.replicate 15 0, rfl⟩

def getRequest (fields : List (Bytes × Bytes)) : RequestInfo := ⟨ascii "GET", fields⟩

def sampleHeader (nc : String) : Bytes × Bytes :=
  (ascii "Authorization",
    ascii ("Digest username=\"u\",nonce=\"AAAAAAAAAAAAAAAAAAAAAA==\",qop=auth,nc=" ++ nc ++ ",response=\"00\""))

theorem accepted_nodup_sample :
    (accepted constantDigest countingRng (.start ⟨ascii "u", ascii "p"⟩)
      [getRequest [], getRequest [sampleHeader "00000001"], getRequest [sampleHeader "00000001"]]).Nodup := by
  have hdistinct : ∀ m < 3, ∀ n < 3,
      base64Encode (countingRng m).bytes = base64Encode (countingRng n).bytes → m = n := by decide
  apply accepted_nodup
  · exact fun m hm n hn hmn => hdistinct m hm n hn hmn
  · exact ⟨by decide, by decide, by decide, trivial⟩

set_option maxRecDepth 4000 in
theorem accepted_twice :
    ¬ (accepted constantDigest countingRng (.start ⟨ascii "u", ascii "p"⟩)
      [getRequest [], getRequest [sampleHeader "00000002"], getRequest [sampleHeader "00000002"]]).Nodup := by
  have htwice : accepted constantDigest countingRng (.start ⟨ascii "u", ascii "p"⟩)
      [getRequest [], getRequest [sampleHeader "00000002"], getRequest [sampleHeader "00000002"]] =
        List.replicate 2 (ascii "AAAAAAAAAAAAAAAAAAAAAA==", (sampleHeader "00000002").2) := rfl
  rw [htwice]
  simp

end

end Velkavo.Epee.Http
