import Velkavo.ByteCodec.InStream
import Velkavo.Containers.OrderedMap
import Velkavo.Containers.UnorderedMap
import Velkavo.Cryptonote.Serialization

namespace Velkavo.Rpc

open ByteCodec ByteCodec.Codec Cryptonote

structure ClientInfo where
  block : Block
  previousBlock : Block
  hashingBlob : Bytes
  previousHashingBlob : Bytes
  seedHeight : UInt64
  previousSeedHeight : UInt64
  seedHash : Hash
  previousSeedHash : Hash
  cookie : UInt32
  top : Hash
  previousTop : Hash
  credits : UInt64
  payments : List UInt64
  previousPayments : List UInt64
  updateTime : UInt64
  lastRequestTimestamp : UInt64
  blockTemplateUpdateTime : UInt64
  creditsTotal : UInt64
  creditsUsed : UInt64
  noncesGood : UInt64
  noncesStale : UInt64
  noncesBad : UInt64
  noncesDupe : UInt64

structure Totals where
  creditsTotal : UInt64
  creditsUsed : UInt64
  noncesGood : UInt64
  noncesStale : UInt64
  noncesBad : UInt64
  noncesDupe : UInt64
  deriving DecidableEq, Repr

def Totals.zero : Totals := ⟨0, 0, 0, 0, 0, 0⟩

structure Ledger where
  clientInfo : UnorderedMap PublicKey ClientInfo
  hashrate : OrderedMap UInt64.toNat UInt64
  totals : Totals
  payments_nodup : ∀ c ∈ clientInfo.entries, c.2.payments.Nodup ∧ c.2.previousPayments.Nodup

def Ledger.fresh : Ledger := ⟨∅, ∅, .zero, fun _ hc => absurd hc List.not_mem_nil⟩

def pair {α β : Type} (c : Codec α) (d : Codec β) : Codec (α × β) :=
  view (seq (checked (varint 64) fun n => decide (n = 2)) (seq c d)) (fun x => (2, x)) Prod.snd fun x hx => by
    have htwo : x.1 = 2 := by
      have h := (Bool.and_eq_true_iff.mp hx).1
      simpa using (Bool.and_eq_true_iff.mp h).2
    rw [← htwo]

instance {α β : Type} (c : Codec α) (d : Codec β) : Consumes (pair c d) :=
  ⟨fun _ hx => absurd hx (by simp [pair, view, seq, dep, checked, filter, varint, writeVarint_ne_nil])⟩

def clientInfo (pruned previousPruned : Bool) : Codec (UInt32 × ClientInfo) :=
  view
    (seq varint32 (seq (block pruned) (seq (block previousPruned) (seq byteString (seq byteString
      (seq varint64 (seq varint64 (seq (blob 32) (seq (blob 32) (seq varint32 (seq (blob 32) (seq (blob 32)
        (seq varint64 (seq (container varint64) (seq (container varint64)
          (seq uint64 (seq uint64 (seq uint64 (seq varint64 (seq varint64 (seq varint64 (seq varint64
            (seq varint64 varint64)))))))))))))))))))))))
    (fun x => (x.1, x.2.block, x.2.previousBlock, x.2.hashingBlob, x.2.previousHashingBlob, x.2.seedHeight,
      x.2.previousSeedHeight, x.2.seedHash, x.2.previousSeedHash, x.2.cookie, x.2.top, x.2.previousTop,
      x.2.credits, x.2.payments, x.2.previousPayments, x.2.updateTime, x.2.lastRequestTimestamp,
      x.2.blockTemplateUpdateTime, x.2.creditsTotal, x.2.creditsUsed, x.2.noncesGood, x.2.noncesStale,
      x.2.noncesBad, x.2.noncesDupe))
    (fun (version, block, previousBlock, hashingBlob, previousHashingBlob, seedHeight, previousSeedHeight,
        seedHash, previousSeedHash, cookie, top, previousTop, credits, payments, previousPayments, updateTime,
        lastRequestTimestamp, blockTemplateUpdateTime, creditsTotal, creditsUsed, noncesGood, noncesStale,
        noncesBad, noncesDupe) =>
      (version, ⟨block, previousBlock, hashingBlob, previousHashingBlob, seedHeight, previousSeedHeight,
        seedHash, previousSeedHash, cookie, top, previousTop, credits, payments, previousPayments, updateTime,
        lastRequestTimestamp, blockTemplateUpdateTime, creditsTotal, creditsUsed, noncesGood, noncesStale,
        noncesBad, noncesDupe⟩))
    fun _ _ => rfl

def ledgerTotals : Codec Totals :=
  view (seq varint64 (seq varint64 (seq varint64 (seq varint64 (seq varint64 varint64)))))
    (fun t => (t.creditsTotal, t.creditsUsed, t.noncesGood, t.noncesStale, t.noncesBad, t.noncesDupe))
    (fun x => ⟨x.1, x.2.1, x.2.2.1, x.2.2.2.1, x.2.2.2.2.1, x.2.2.2.2.2⟩) fun _ _ => rfl

structure LedgerData where
  version : UInt32
  clients : List (PublicKey × UInt32 × ClientInfo)
  hashrate : List (UInt64 × UInt64)
  totals : Totals

def ledgerData : Codec LedgerData :=
  view
    (seq varint32 (seq (container (pair (blob 32) (clientInfo false false)))
      (seq (container (pair varint64 varint64)) ledgerTotals)))
    (fun d => (d.version, d.clients, d.hashrate, d.totals)) (fun x => ⟨x.1, x.2.1, x.2.2.1, x.2.2.2⟩)
    fun _ _ => rfl

def emplaceAll (l : List UInt64) : List UInt64 :=
  (UnorderedMap.ofList (l.map fun x => (x, ()))).entries.map Prod.fst

def ClientInfo.ofData (c : ClientInfo) : ClientInfo :=
  { c with payments := emplaceAll c.payments, previousPayments := emplaceAll c.previousPayments }

theorem nodup_emplaceAll (l : List UInt64) : (emplaceAll l).Nodup :=
  (UnorderedMap.ofList (l.map fun x => (x, ()))).nodup

def LedgerData.toLedger (d : LedgerData) : Ledger where
  clientInfo := UnorderedMap.ofList (d.clients.map fun c => (c.1, c.2.2.ofData))
  hashrate := OrderedMap.ofList d.hashrate
  totals := d.totals
  payments_nodup c hc := by
    obtain ⟨x, -, rfl⟩ := List.mem_map.mp (UnorderedMap.mem_of_mem_ofList hc)
    exact ⟨nodup_emplaceAll _, nodup_emplaceAll _⟩

def parseLedger (bytes : Bytes) : Option Ledger := (readAll ledgerData .accept bytes).map LedgerData.toLedger

def clientEntry (c : PublicKey × ClientInfo) : Codec (PublicKey × UInt32 × ClientInfo) :=
  pair (blob 32) (clientInfo c.2.block.minerTx.pruned c.2.previousBlock.minerTx.pruned)

def Ledger.serialize (l : Ledger) : Option Bytes :=
  let clients := l.clientInfo.entries
  if clients.length < 2 ^ 64 ∧ clients.all (fun c => (clientEntry c).valid (c.1, 0, c.2)) ∧
      (container (pair varint64 varint64)).valid l.hashrate.entries then
    some (varint32.write 0 ++
      (writeVarint clients.length ++ clients.flatMap (fun c => (clientEntry c).write (c.1, 0, c.2)) ++
        ((container (pair varint64 varint64)).write l.hashrate.entries ++ ledgerTotals.write l.totals)))
  else none

instance {α β : Type} (c : Codec α) (d : Codec β) [Exact c] [Exact d] : Exact (pair c d) :=
  exact_view fun _ => rfl

instance : Exact ledgerTotals := exact_view fun _ => rfl

structure StateFile where
  data : Option Bytes
  old : Option Bytes

abbrev FileSystem := Bytes → StateFile

structure Host where
  /-- whether the directory and the file in it can be written -/
  writable : Bytes → Bool
  /-- what is in the file when a template cannot be written -/
  cutOff : Ledger → Bytes
  /-- the archive of older versions, read from what is left of the stream -/
  portableBinary : InStream → Option Ledger
  /-- what a read that fails leaves in the object -/
  leftover : Bytes → Ledger → Ledger

def store (host : Host) (fs : FileSystem) (l : Ledger) (directory : Bytes) : Bool × FileSystem :=
  if !host.writable directory then (false, fs)
  else
    let old := match (fs directory).data with
      | some data => some data
      | none => (fs directory).old
    match l.serialize with
    | some bytes => (true, Function.update fs directory ⟨some bytes, old⟩)
    | none => (false, Function.update fs directory ⟨some (host.cutOff l), old⟩)

def clearClients (l : Ledger) : Ledger :=
  { l with clientInfo := ∅, payments_nodup := fun _ hc => absurd hc List.not_mem_nil }

def load (host : Host) (fs : FileSystem) (l : Ledger) (directory : Bytes) : Ledger :=
  let (bytes, data) := (InStream.opened (fs directory).data).chars
  if !data.fail then
    match parseLedger bytes with
    | some loaded => loaded
    | none =>
      match host.portableBinary data with
      | some loaded => loaded
      | none => clearClients (host.leftover bytes l)
  else clearClients l

theorem load_eq (host : Host) (fs : FileSystem) (l : Ledger) (directory : Bytes) :
    load host fs l directory = clearClients l := by
  rw [load]
  dsimp only
  rw [InStream.fail_chars]
  rfl

theorem load_store (host : Host) (fs : FileSystem) (l : Ledger) (hl : l.clientInfo.entries ≠ [])
    (directory : Bytes) :
    load host (store host fs l directory).2 .fresh directory = .fresh ∧
      (load host (store host fs l directory).2 .fresh directory).clientInfo.entries ≠ l.clientInfo.entries := by
  rw [load_eq]
  exact ⟨rfl, fun h => hl h.symm⟩

def emptyBlock : Block := ⟨⟨0, 0, 0, nullHash, 0⟩, ⟨⟨1, 0, [], [], []⟩, [], default, false⟩, []⟩

def newClient : ClientInfo :=
  ⟨emptyBlock, emptyBlock, [], [], 0, 0, nullHash, nullHash, 7, nullHash, nullHash, 100, [1, 2], [],
    0, 0, 0, 100, 0, 2, 0, 0, 0⟩

def oneClient : Ledger where
  clientInfo := ⟨[(Blob.zero 32, newClient)], by simp⟩
  hashrate := ∅
  totals := ⟨100, 0, 2, 0, 0, 0⟩
  payments_nodup c hc := by
    rw [List.mem_singleton.mp hc]
    decide

def plainHost : Host := ⟨fun _ => true, fun _ => [], fun _ => none, fun _ l => l⟩

theorem load_store_oneClient :
    oneClient.clientInfo.entries ≠ [] ∧
    load plainHost (store plainHost (fun _ => ⟨none, none⟩) oneClient []).2 .fresh [] = .fresh ∧
    (load plainHost (store plainHost (fun _ => ⟨none, none⟩) oneClient []).2 .fresh []).clientInfo.entries ≠
      oneClient.clientInfo.entries := by
  have hl : oneClient.clientInfo.entries ≠ [] := List.cons_ne_nil _ _
  exact ⟨hl, load_store plainHost _ oneClient hl []⟩

theorem load_forgets_oneClient :
    (store plainHost (fun _ => ⟨none, none⟩) oneClient []).1 = true ∧
    oneClient.clientInfo.entries.length = 1 ∧
    (load plainHost (store plainHost (fun _ => ⟨none, none⟩) oneClient []).2 .fresh
      []).clientInfo.entries.length = 0 := by
  decide +kernel

end Velkavo.Rpc
