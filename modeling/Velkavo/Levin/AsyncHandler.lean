import Velkavo.Levin.Base

namespace Velkavo.Levin

open ByteCodec

inductive StreamState
  | head
  | body
  deriving DecidableEq

inductive Event
  | notify (command : UInt32) (payload : Bytes)
  | invoke (command : UInt32) (payload : Bytes)
  | response (returnCode : UInt32) (payload : Bytes)
  deriving DecidableEq

structure Endpoint where
  maxBytes : UInt32 → ℕ
  maxPacketSize : UInt64
  handshakeCommand : UInt32
  handshakeComplete : List Event → Bool
  sends : List Event → Bool

structure Handler where
  maxPacketSize : UInt64
  closeCalled : Bool := false
  cacheInBuffer : Bytes := []
  state : StreamState := .head
  currentHead : BucketHead2 := ⟨0, 0, 0, 0, 0, 0, 0⟩
  oponentProtocolVer : UInt32 := 0
  fragmentBuffer : Bytes := []
  responseHandlers : List Bool := []
  events : List Event := []

variable (e : Endpoint)

def dispatch (s : Handler) (payload : Bytes) : Handler × Bool :=
  let head := s.currentHead
  if s.oponentProtocolVer = levinProtocolVer1 ∧ head.flags &&& packetResponse ≠ 0 then
    match s.responseHandlers with
    | [] => (s, false)
    | true :: rest => ({ s with responseHandlers := rest, events := s.events ++ [.response head.returnCode payload] }, true)
    | false :: _ => (s, true)
  else if head.haveToReturnData ≠ 0 then
    let s := { s with events := s.events ++ [.invoke head.command payload] }
    let s :=
      if head.command = e.handshakeCommand ∧ e.handshakeComplete s.events then { s with maxPacketSize := e.maxPacketSize }
      else s
    (s, e.sends s.events)
  else ({ s with events := s.events ++ [.notify head.command payload] }, true)

def dispatchFragments (maxPacketSize : ℕ) (s : Handler) : Handler × Bool :=
  match bucketHead2.read .reject s.fragmentBuffer with
  | none => (s, false)
  | some (head, payload) =>
    let s := { s with fragmentBuffer := [], currentHead := head }
    if payload.length < head.cb.toNat then (s, false)
    else
      let payload := payload.take head.cb.toNat
      if payload.length > min maxPacketSize (e.maxBytes head.command) then (s, false) else dispatch e s payload

def handleBody (maxPacketSize : ℕ) (s : Handler) : Handler × Bool :=
  let head := s.currentHead
  let payload := s.cacheInBuffer.take head.cb.toNat
  let s := { s with cacheInBuffer := s.cacheInBuffer.drop head.cb.toNat, state := .head }
  if head.flags &&& (packetRequest ||| packetResponse) = 0 then
    -- noise is skipped, fragments are collected
    if head.flags &&& (packetBegin ||| packetEnd) = packetBegin ||| packetEnd then (s, true)
    else
      let collected := if head.flags &&& packetBegin ≠ 0 then [] else s.fragmentBuffer
      let s := { s with fragmentBuffer := collected ++ payload }
      if head.flags &&& packetEnd = 0 then (s, true) else dispatchFragments e maxPacketSize s
  else dispatch e s payload

def handleHead (maxPacketSize : ℕ) (s : Handler) : Handler × Bool :=
  match bucketHead2.read .reject s.cacheInBuffer with
  | none => (s, false)
  | some (head, rest) =>
    if head.signature ≠ levinSignature then (s, false)
    else
      ({ s with currentHead := head, cacheInBuffer := rest, state := .body, oponentProtocolVer := head.protocolVersion },
        decide (head.cb.toNat ≤ min maxPacketSize (e.maxBytes head.command)))

def recvLoop (maxPacketSize : ℕ) : ℕ → Handler → Handler × Bool
  | 0, s => (s, false)
  | fuel + 1, s =>
    match s.state with
    | .body =>
      if s.cacheInBuffer.length < s.currentHead.cb.toNat then (s, true)
      else
        let r := handleBody e maxPacketSize s
        if r.2 then recvLoop maxPacketSize fuel r.1 else r
    | .head =>
      if s.cacheInBuffer.length < sizeofHead then
        (s, decide (s.cacheInBuffer.length < 8 ∨
          s.cacheInBuffer.take 8 = littleEndian 8 levinSignature.toNat))
      else
        let r := handleHead e maxPacketSize s
        if r.2 then recvLoop maxPacketSize fuel r.1 else r

def handleRecv (s : Handler) (bytes : Bytes) : Handler × Bool :=
  let maxPacketSize := s.maxPacketSize.toNat
  if s.closeCalled then (s, false)
  else if maxPacketSize < s.cacheInBuffer.length then (s, false)
  else if maxPacketSize - s.cacheInBuffer.length < s.fragmentBuffer.length then (s, false)
  else if bytes.length > maxPacketSize - s.cacheInBuffer.length - s.fragmentBuffer.length then (s, false)
  else
    let s := { s with cacheInBuffer := s.cacheInBuffer ++ bytes }
    recvLoop e maxPacketSize (2 * s.cacheInBuffer.length + 2) s

def receive (s : Handler) : List Bytes → Handler × Bool
  | [] => (s, true)
  | bytes :: rest =>
    let r := handleRecv e s bytes
    if r.2 then receive r.1 rest else r

end Velkavo.Levin
