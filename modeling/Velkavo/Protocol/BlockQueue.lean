import Velkavo.BlockchainDb.Pruning
import Velkavo.Containers.SetMap

/-! The queue of spans of blocks that are to be downloaded from peers. -/

namespace Velkavo.Protocol

open Cryptonote BlockchainDb

def pruningStripeSize : UInt64 := 4096

def pruningTipBlocks : UInt64 := 5500

def maxBlockNumber : UInt64 := 500000000

def getPruningStripeOf (blockHeight blockchainHeight : UInt64) (logStripes : UInt32) : UInt64 :=
  if blockHeight + pruningTipBlocks ≥ blockchainHeight then 0
  else ((blockHeight / pruningStripeSize) &&& ((1 <<< logStripes.toUInt64) - 1)) + 1

def hasUnprunedBlock (blockHeight blockchainHeight : UInt64) (pruningSeed : UInt32) : Bool :=
  let stripe := getPruningStripe pruningSeed
  if stripe = 0 then true
  else
    let blockStripe := getPruningStripeOf blockHeight blockchainHeight (getPruningLogStripes pruningSeed)
    blockStripe = 0 || blockStripe = stripe.toUInt64

def getNextUnprunedBlockHeight (blockHeight blockchainHeight : UInt64) (pruningSeed : UInt32) : UInt64 :=
  if maxBlockNumber + 1 < blockHeight then blockHeight
  else if maxBlockNumber + 1 < blockchainHeight then blockHeight
  else
    let stripe := (getPruningStripe pruningSeed).toUInt64
    if stripe = 0 then blockHeight
    else if blockHeight + pruningTipBlocks ≥ blockchainHeight then blockHeight
    else
      let seedLogStripes := getPruningLogStripes pruningSeed
      let logStripes := (if seedLogStripes ≠ 0 then seedLogStripes else pruningLogStripes).toUInt64
      let mask := (1 <<< logStripes) - 1
      let blockPruningStripe := ((blockHeight / pruningStripeSize) &&& mask) + 1
      if blockPruningStripe = stripe then blockHeight
      else
        let cycles := (blockHeight / pruningStripeSize) >>> logStripes
        let cycleStart := cycles + if stripe > blockPruningStripe then 0 else 1
        let h := cycleStart * (pruningStripeSize <<< logStripes) + (stripe - 1) * pruningStripeSize
        if h + pruningTipBlocks > blockchainHeight then
          if blockchainHeight < pruningTipBlocks then 0 else blockchainHeight - pruningTipBlocks
        else if h < blockHeight then blockHeight
        else h

variable {κ β : Type} [DecidableEq κ]

structure Span (κ β : Type) where
  hashes : List Hash
  blocks : List β
  connectionId : κ
  nblocks : UInt64

structure BlockQueue (κ β : Type) where
  blocks : OrderedMap UInt64.toNat (Span κ β)
  requestedHashes : UnorderedSet Hash
  haveBlocks : UnorderedMap Hash UInt64

namespace BlockQueue

variable (q : BlockQueue κ β)

instance : EmptyCollection (BlockQueue κ β) := ⟨⟨∅, ∅, ∅⟩⟩

def requested (hash : Hash) : Bool := hash ∈ q.requestedHashes

def haveHash (hash : Hash) : Bool := (q.haveBlocks.find? hash).isSome

def eraseBlock (j : UInt64 × Span κ β) : BlockQueue κ β where
  blocks := q.blocks.erase j.1
  requestedHashes := j.2.hashes.foldl UnorderedSet.erase q.requestedHashes
  haveBlocks := j.2.hashes.foldl UnorderedMap.erase q.haveBlocks

def eraseBlocks (gone : UInt64 × Span κ β → Bool) : BlockQueue κ β :=
  q.blocks.entries.foldl (fun q j => if gone j then q.eraseBlock j else q) q

def flushSpans (connectionId : κ) (all : Bool) : BlockQueue κ β :=
  q.eraseBlocks fun j => j.2.connectionId = connectionId && (all || j.2.blocks.isEmpty)

def flushStaleSpans (liveConnections : List κ) : BlockQueue κ β :=
  q.eraseBlocks fun j => j.2.blocks.isEmpty && decide (j.2.connectionId ∉ liveConnections)

def removeSpans (connectionId : κ) (startBlockHeight : UInt64) : BlockQueue κ β :=
  q.eraseBlocks fun j => j.2.connectionId = connectionId && decide (j.1 ≤ startBlockHeight)

def removeSpan (startBlockHeight : UInt64) : BlockQueue κ β × Option (List Hash) :=
  match q.blocks.entries.find? fun i => decide (i.1 = startBlockHeight) with
  | some i => (q.eraseBlock i, some i.2.hashes)
  | none => (q, none)

def insertSpan (start : UInt64) (span : Span κ β) : BlockQueue κ β := { q with blocks := q.blocks.emplace (start, span) }

def setSpanHashes (startHeight : UInt64) (connectionId : κ) (hashes : List Hash) : BlockQueue κ β :=
  match q.blocks.entries.find? fun i => i.1 = startHeight && decide (i.2.connectionId = connectionId) with
  | none => q
  | some i =>
    let q := q.eraseBlock i
    let q := { q with requestedHashes := hashes.foldl UnorderedSet.insert q.requestedHashes }
    q.insertSpan i.1 { i.2 with hashes := hashes }

def addBlocks (height : UInt64) (bcel : List β) (connectionId : κ) : BlockQueue κ β :=
  let removed := q.removeSpan height
  let q := removed.1.insertSpan height ⟨[], bcel, connectionId, .ofNat bcel.length⟩
  match removed.2 with
  | none => q
  | some hashes =>
    let q : BlockQueue κ β :=
      { q with
        requestedHashes := hashes.foldl UnorderedSet.insert q.requestedHashes
        haveBlocks := (hashes.zipIdx.map fun x => (x.1, height + .ofNat x.2)).foldl UnorderedMap.emplace q.haveBlocks }
    q.setSpanHashes height connectionId hashes

def addScheduled (height nblocks : UInt64) (connectionId : κ) : Option (BlockQueue κ β) :=
  if nblocks = 0 then none else some (q.insertSpan height ⟨[], [], connectionId, nblocks⟩)

def skipRequested : List (Hash × UInt64) → UInt64 → List (Hash × UInt64) × UInt64
  | [], spanStartHeight => ([], spanStartHeight)
  | i :: rest, spanStartHeight =>
    if q.requested i.1 then skipRequested rest (spanStartHeight + 1) else (i :: rest, spanStartHeight)

structure Reservation (κ : Type) where
  firstBlockHeight : UInt64
  lastBlockHeight : UInt64
  maxBlocks : UInt64
  connectionId : κ
  syncPrunedBlocks : Bool
  localPruningSeed : UInt32
  pruningSeed : UInt32
  blockchainHeight : UInt64
  blockHashes : List (Hash × UInt64)

namespace Reservation

variable (a : Reservation κ)

def blockHashesStartHeight : UInt64 := a.lastBlockHeight - .ofNat a.blockHashes.length + 1

def jump (spanStartHeight : UInt64) : UInt64 :=
  if a.syncPrunedBlocks then spanStartHeight
  else
    let nextUnprunedHeight :=
      (getNextUnprunedBlockHeight spanStartHeight a.blockchainHeight a.pruningSeed).toUInt32.toUInt64
    if nextUnprunedHeight > spanStartHeight && decide (nextUnprunedHeight < spanStartHeight + pruningStripeSize) then
      nextUnprunedHeight
    else spanStartHeight

def firstIsPruned (spanStartHeight : UInt64) : Bool :=
  a.syncPrunedBlocks && !hasUnprunedBlock spanStartHeight a.blockchainHeight a.localPruningSeed

def goesOn (spanStartHeight height : UInt64) : Bool :=
  (a.syncPrunedBlocks || hasUnprunedBlock height a.blockchainHeight a.pruningSeed) &&
    !(a.syncPrunedBlocks &&
      a.firstIsPruned spanStartHeight == hasUnprunedBlock height a.blockchainHeight a.localPruningSeed)

def spanHashes (spanStartHeight : UInt64) : List (Hash × UInt64) → UInt64 → List Hash × UInt64
  | [], spanLength => ([], spanLength)
  | i :: rest, spanLength =>
    if spanLength < a.maxBlocks && a.goesOn spanStartHeight (spanStartHeight + spanLength) then
      let taken := spanHashes spanStartHeight rest (spanLength + 1)
      (i.1 :: taken.1, taken.2)
    else ([], spanLength)

end Reservation

def reserveSpan (a : Reservation κ) : BlockQueue κ β × UInt64 × UInt64 :=
  if a.lastBlockHeight < a.firstBlockHeight || a.maxBlocks = 0 then (q, 0, 0)
  else if a.lastBlockHeight.toNat < a.blockHashes.length then (q, 0, 0)
  else
    let spanStartHeight := a.jump (q.skipRequested a.blockHashes a.blockHashesStartHeight).2
    if spanStartHeight ≥ .ofNat a.blockHashes.length + a.blockHashesStartHeight then (q, 0, 0)
    else
      let (i, spanStartHeight) :=
        q.skipRequested (a.blockHashes.drop (spanStartHeight - a.blockHashesStartHeight).toNat) spanStartHeight
      let (hashes, spanLength) := a.spanHashes spanStartHeight i 0
      if spanLength = 0 then (q, 0, 0)
      else
        (((q.addScheduled spanStartHeight spanLength a.connectionId).getD q).setSpanHashes spanStartHeight a.connectionId
          hashes, spanStartHeight, spanLength)

end BlockQueue

end Velkavo.Protocol
