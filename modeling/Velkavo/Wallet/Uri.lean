import Velkavo.Cryptonote.AccountAddress
import Velkavo.Cryptonote.Money

namespace Velkavo.Wallet

open ByteCodec Cryptonote StringTools

structure Wallet2 where
  crypto : AddressCrypto
  nettype : NetworkType
  decimalPoint : ℕ

structure UriParts where
  address : Bytes
  paymentId : Bytes
  amount : UInt64
  txDescription : Bytes
  recipientName : Bytes
  unknownParameters : List Bytes
  error : Bytes
  deriving DecidableEq, Repr

def UriParts.fresh : UriParts := ⟨[], [], 0, [], [], [], []⟩

def scheme : Bytes := ascii "velkavo:"

def ampersand : UInt8 := 0x26

def equalsSign : UInt8 := 0x3d

def questionMark : UInt8 := 0x3f

def addField (uri : Bytes × ℕ) (key value : Bytes) : Bytes × ℕ :=
  (uri.1 ++ (if uri.2 = 0 then questionMark else ampersand) :: (key ++ equalsSign :: value), uri.2 + 1)

def strchr (s : Bytes) (c : UInt8) : Option ℕ :=
  let n := (s.takeWhile fun b => b ≠ c && b ≠ 0).length
  if s[n]? = some c then some n else none

def optionalField (present : Bool) (field : Bytes × Bytes) : List (Bytes × Bytes) :=
  if present then [field] else []

def parseLongPaymentId (s : Bytes) : Bool := (Blob.ofHex? 32 s).isSome

namespace Wallet2

variable (w : Wallet2)

def makeUri (address paymentId : Bytes) (amount : UInt64) (txDescription recipientName : Bytes) :
    Except Bytes Bytes :=
  match w.crypto.getAccountAddressFromStr w.nettype address with
  | none => .error (ascii "wrong address: " ++ address)
  | some info =>
    if info.paymentId.isSome && !paymentId.isEmpty then .error (ascii "A single payment id is allowed")
    else if !paymentId.isEmpty then
      .error (ascii "Standalone payment id deprecated, use integrated address instead")
    else
      let uri := (scheme ++ address, 0)
      let uri := if paymentId.isEmpty then uri else addField uri (ascii "tx_payment_id") paymentId
      let uri := if amount > 0 then addField uri (ascii "tx_amount") (printMoney w.decimalPoint amount) else uri
      let uri := if recipientName.isEmpty then uri
        else addField uri (ascii "recipient_name") (converToUrlFormat recipientName)
      let uri := if txDescription.isEmpty then uri
        else addField uri (ascii "tx_description") (converToUrlFormat txDescription)
      .ok uri.1

def parseArgument (info : AddressParseInfo) (out : UriParts) (arg key value : Bytes) : Bool × UriParts :=
  if key = ascii "tx_amount" then
    match parseAmount w.decimalPoint value with
    | some amount => (true, { out with amount := amount })
    | none => (false, { out with amount := 0, error := ascii "URI has invalid amount: " ++ value })
  else if key = ascii "tx_payment_id" then
    if info.paymentId.isSome then
      (false, { out with error := ascii "Separate payment id given with an integrated address" })
    else if parseLongPaymentId value then (true, { out with paymentId := value })
    else (false, { out with error := ascii "Invalid payment id: " ++ value })
  else if key = ascii "recipient_name" then (true, { out with recipientName := convertFromUrlFormat value })
  else if key = ascii "tx_description" then (true, { out with txDescription := convertFromUrlFormat value })
  else (true, { out with unknownParameters := out.unknownParameters ++ [arg] })

def parseArguments (info : AddressParseInfo) : List Bytes → List Bytes → UriParts → Bool × UriParts
  | _, [], out => (true, out)
  | haveArg, arg :: arguments, out =>
    match arg.splitOn equalsSign with
    | [key, value] =>
      if key ∈ haveArg then (false, { out with error := ascii "URI has more than one instance of " ++ key })
      else
        match parseArgument w info out arg key value with
        | (true, out) => parseArguments info (key :: haveArg) arguments out
        | failed => failed
    | _ => (false, { out with error := ascii "URI has wrong parameter: " ++ arg })

def parseRemainder (out : UriParts) (remainder : Bytes) : Bool × UriParts :=
  let address := match strchr remainder questionMark with
    | some n => remainder.take n
    | none => remainder
  let out := { out with address := address }
  match w.crypto.getAccountAddressFromStr w.nettype address with
  | none => (false, { out with error := ascii "URI has wrong address: " ++ address })
  | some info =>
    if strchr remainder questionMark = none then (true, out)
    else
      let body := remainder.drop (address.length + 1)
      if body.isEmpty then (true, out)
      else parseArguments w info [] (body.splitOn ampersand) out

def parseUri (out : UriParts) (uri : Bytes) : Bool × UriParts :=
  if uri.take 7 ≠ scheme then
    (false, { out with error := ascii "URI has wrong scheme (expected \"velkavo:\"): " ++ uri })
  else parseRemainder w out (uri.drop 7)

def fields (amount : UInt64) (txDescription recipientName : Bytes) : List (Bytes × Bytes) :=
  optionalField (amount > 0) (ascii "tx_amount", printMoney w.decimalPoint amount) ++
  (optionalField (!recipientName.isEmpty) (ascii "recipient_name", converToUrlFormat recipientName) ++
    optionalField (!txDescription.isEmpty) (ascii "tx_description", converToUrlFormat txDescription))

end Wallet2

def fieldText (field : Bytes × Bytes) : Bytes := field.1 ++ equalsSign :: field.2

def query : List (Bytes × Bytes) → Bytes
  | [] => []
  | field :: rest => questionMark :: [ampersand].intercalate ((field :: rest).map fieldText)

namespace Wallet2

variable (w : Wallet2)

theorem makeUri_eq {address : Bytes} {info : AddressParseInfo}
    (h : w.crypto.getAccountAddressFromStr w.nettype address = some info) (amount : UInt64)
    (txDescription recipientName : Bytes) :
    w.makeUri address [] amount txDescription recipientName =
      .ok (scheme ++ (address ++ query (w.fields amount txDescription recipientName))) := by
  rw [makeUri, h, fields]
  simp only [List.isEmpty_nil, Bool.not_true, Bool.and_false, Bool.false_eq_true, if_false, if_true]
  by_cases ha : amount > 0 <;> cases recipientName <;> cases txDescription <;>
    simp [ha, optionalField, addField, query, fieldText, List.intercalate, List.intersperse]

theorem parseUri_eq_false (out : UriParts) (uri : Bytes) : (w.parseUri out uri).1 = false := by
  have hne : uri.take 7 ≠ scheme := by
    intro h
    have hlen := congrArg List.length h
    have hscheme : scheme.length = 8 := by decide
    rw [hscheme, List.length_take] at hlen
    omega
  rw [parseUri, if_pos hne]

theorem parseUri_makeUri {address : Bytes}
    (h : (w.crypto.getAccountAddressFromStr w.nettype address).isSome = true) (amount : UInt64)
    (txDescription recipientName : Bytes) (out : UriParts) :
    ∃ uri, w.makeUri address [] amount txDescription recipientName = .ok uri ∧
      ∀ parts, w.parseUri out uri ≠ (true, parts) := by
  obtain ⟨info, hinfo⟩ := Option.isSome_iff_exists.mp h
  refine ⟨_, w.makeUri_eq hinfo amount txDescription recipientName, fun parts hparts => ?_⟩
  have hfalse := w.parseUri_eq_false out
    (scheme ++ (address ++ query (w.fields amount txDescription recipientName)))
  rw [hparts] at hfalse
  exact Bool.false_ne_true hfalse.symm

end Wallet2

def plainWallet : Wallet2 := ⟨⟨fun _ => Blob.zero 32, fun _ => true⟩, .testnet, 12⟩

def plainAddress : Bytes :=
  plainWallet.crypto.getAccountAddressAsStr .testnet false ⟨Blob.zero 32, Blob.zero 32⟩

theorem parseUri_makeUri_plain :
    (plainWallet.crypto.getAccountAddressFromStr .testnet plainAddress).isSome = true ∧
    ∃ uri, plainWallet.makeUri plainAddress [] 0 [] [] = .ok uri ∧
      ∀ parts, plainWallet.parseUri .fresh uri ≠ (true, parts) := by
  have hvalid : (plainWallet.crypto.getAccountAddressFromStr .testnet plainAddress).isSome = true := by
    decide
  exact ⟨hvalid, plainWallet.parseUri_makeUri hvalid 0 [] [] .fresh⟩

theorem parseUri_plainAddress :
    (plainWallet.makeUri plainAddress [] 0 [] []).toOption = some (scheme ++ plainAddress) ∧
    (plainWallet.parseUri .fresh (scheme ++ plainAddress)).1 = false := by
  decide

end Velkavo.Wallet
