import Velkavo.ByteCodec.Formats

namespace Velkavo.Levin

open ByteCodec Codec

def levinSignature : UInt64 := 0x0101010101012101

def packetRequest : UInt32 := 0x00000001
def packetResponse : UInt32 := 0x00000002
def packetBegin : UInt32 := 0x00000004
def packetEnd : UInt32 := 0x00000008

def levinProtocolVer1 : UInt32 := 1

structure BucketHead2 where
  signature : UInt64
  cb : UInt64
  haveToReturnData : UInt8
  command : UInt32
  returnCode : UInt32
  flags : UInt32
  protocolVersion : UInt32
  deriving DecidableEq

def bucketHead2 : Codec BucketHead2 :=
  view (seq uint64 (seq uint64 (seq byte (seq uint32 (seq uint32 (seq uint32 uint32))))))
    (fun h => (h.signature, h.cb, h.haveToReturnData, h.command, h.returnCode, h.flags, h.protocolVersion))
    (fun x => ⟨x.1, x.2.1, x.2.2.1, x.2.2.2.1, x.2.2.2.2.1, x.2.2.2.2.2.1, x.2.2.2.2.2.2⟩) fun _ _ => rfl

instance : Exact bucketHead2 := exact_view fun _ => rfl

def sizeofHead : ℕ := 33

theorem length_write_bucketHead2 (h : BucketHead2) : (bucketHead2.write h).length = sizeofHead := by
  simp [bucketHead2, view, seq, dep, uint64, uint32, byte, blob, littleEndian_length, sizeofHead]

theorem read_write_bucketHead2 (h : BucketHead2) (rest : Bytes) :
    bucketHead2.read .reject (bucketHead2.write h ++ rest) = some (h, rest) := by
  rw [bucketHead2.read_write .reject h rest rfl, Exact.kept_eq]

def makeHeader (command : UInt32) (msgSize : ℕ) (flags : UInt32) (expectResponse : Bool) : BucketHead2 where
  signature := levinSignature
  cb := UInt64.ofNat msgSize
  haveToReturnData := if expectResponse then 1 else 0
  command
  returnCode := 0
  flags
  protocolVersion := levinProtocolVer1

def finalize (command flags returnCode : UInt32) (expectResponse : Bool) (payload : Bytes) : Bytes :=
  bucketHead2.write { makeHeader command payload.length flags expectResponse with returnCode } ++ payload

def finalizeNotify (command : UInt32) (payload : Bytes) : Bytes := finalize command packetRequest 0 false payload

def makeNoiseNotify (noiseBytes : ℕ) : Option Bytes :=
  if noiseBytes < sizeofHead then none
  else
    some (bucketHead2.write (makeHeader 0 (noiseBytes - sizeofHead) (packetBegin ||| packetEnd) false) ++
      List.replicate (noiseBytes - sizeofHead) 0)

def writeFragments (payloadSpace : ℕ) : ℕ → Bytes → ℕ → Bytes × ℕ
  | 0, _, copySize => ([], copySize)
  | fuel + 1, payload, copySize =>
    if payload = [] then ([], copySize)
    else
      let copy := payload.take payloadSpace
      let payload := payload.drop payloadSpace
      let flags := if payload = [] then packetEnd else 0
      let rest := writeFragments payloadSpace fuel payload copy.length
      (bucketHead2.write (makeHeader 0 payloadSpace flags false) ++ copy ++ rest.1, rest.2)

def makeFragmentedNotify (noiseSize : ℕ) (command : UInt32) (message : Bytes) : Option Bytes :=
  if noiseSize < sizeofHead * 2 then none
  else if sizeofHead + message.length ≤ noiseSize then
    some (finalizeNotify command (message ++ List.replicate (noiseSize - (sizeofHead + message.length)) 0))
  else
    let payload := finalizeNotify command message
    let payloadSpace := noiseSize - sizeofHead
    let first := payload.take payloadSpace
    let rest := writeFragments payloadSpace payload.length (payload.drop payloadSpace) first.length
    some (bucketHead2.write (makeHeader 0 payloadSpace packetBegin false) ++ first ++ rest.1 ++
      List.replicate (noiseSize - rest.2 - sizeofHead) 0)

end Velkavo.Levin
