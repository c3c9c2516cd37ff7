import Velkavo.TxPool.Pool

/-! The transactions that are to be relayed again, and the times of their next attempts. -/

namespace Velkavo.TxPool.Relayable

open Cryptonote ByteCodec BlockchainDb

structure TxMeta where
  fee : UInt64
  receiveTime : UInt64
  lastRelayedTime : UInt64
  keptByBlock : UInt8
  doNotRelay : UInt8
  isLocal : Bool
  isForwarding : Bool
  dandelionppStem : Bool
  pruned : Bool
  deriving DecidableEq

def TxMeta.getRelayMethod (m : TxMeta) : RelayMethod :=
  match m.keptByBlock + (m.doNotRelay <<< 1) + (m.isLocal.toUInt8 <<< 2) + (m.isForwarding.toUInt8 <<< 3) +
      (m.dandelionppStem.toUInt8 <<< 4) with
  | 1 => .block
  | 2 => .none
  | 4 => .localOnly
  | 8 => .forward
  | 16 => .stem
  | _ => .fluff

structure Row where
  txMeta : TxMeta
  blob : Option Bytes

structure Pool where
  table : ByHash Row
  nextCheck : Int64

def minRelayTime : Int64 := 60 * 5

def maxRelayTime : Int64 := 60 * 60 * 4

def txLivetime : UInt64 := 86400 * 3

def txFromAltBlockLivetime : UInt64 := 604800

def maxRelayableCheck : UInt64 := 2 * 60

def getRelayDelay (lastRelay received : UInt64) : UInt64 :=
  let d := (lastRelay.toInt64 - received.toInt64 + minRelayTime) / minRelayTime * minRelayTime
  (if d > maxRelayTime then maxRelayTime else d).toUInt64

structure Scan where
  txs : List (Hash × Bytes × RelayMethod)
  changeTimestamps : List (Hash × Row)
  nextCheck : UInt64

def maxAge (txRelay : RelayMethod) : UInt64 := if txRelay = .block then txFromAltBlockLivetime else txLivetime

def addTx (now : UInt64) (s : Scan) (txid : Hash) (row : Row) : Scan :=
  let txRelay := row.txMeta.getRelayMethod
  if now - row.txMeta.receiveTime ≤ maxAge txRelay / 2 then
    match row.blob with
    | none => s
    | some blob => { s with txs := s.txs ++ [(txid, blob, txRelay)] }
  else s

def scanTx (now : UInt64) (s : Scan) (x : Hash × Row) : Scan :=
  let m := x.2.txMeta
  if !m.getRelayMethod.matchesCategory .relayable then s
  else if m.pruned = false ∧ 0 < m.fee ∧ m.doNotRelay = 0 then
    match m.getRelayMethod with
    | .stem | .forward =>
      if m.lastRelayedTime > now then { s with nextCheck := min s.nextCheck m.lastRelayedTime }
      else addTx now { s with changeTimestamps := s.changeTimestamps ++ [x] } x.1 x.2
    | .none => s
    | .localOnly | .fluff | .block =>
      if now - m.lastRelayedTime ≤ getRelayDelay m.lastRelayedTime m.receiveTime then s else addTx now s x.1 x.2
  else s

def changeTimestamp (now : UInt64) (table : ByHash Row) (x : Hash × Row) : ByHash Row :=
  let m := x.2.txMeta
  table.assign x.1 { x.2 with txMeta := { m with lastRelayedTime := now + getRelayDelay m.lastRelayedTime m.receiveTime } }

/-- What a `LockedTXN` leaves when it is destroyed; `batch` says that it started a batch of its own. -/
def locked {α : Type} (batch committed : Bool) (before after : α) : α := if batch && !committed then before else after

def timeMax : UInt64 := 0x7fffffffffffffff

def getRelayableTransactions (batchActive : Bool) (now : UInt64) (p : Pool) :
    Pool × Option (List (Hash × Bytes × RelayMethod)) :=
  if timeMax < now ∨ now.toInt64 < p.nextCheck then (p, none)
  else
    let s := p.table.entries.foldl (scanTx now) ⟨[], [], now + maxRelayableCheck⟩
    let table := s.changeTimestamps.foldl (changeTimestamp now) p.table
    (⟨locked (!batchActive) false p.table table, s.nextCheck.toInt64⟩, some s.txs)

def run (p : Pool) (times : List UInt64) : Pool := times.foldl (fun p now => (getRelayableTransactions false now p).1) p

def Waiting (method : RelayMethod) : Prop := method = .stem ∨ method = .forward

structure Due (now : UInt64) (row : Row) : Prop where
  waiting : Waiting row.txMeta.getRelayMethod
  relayable : row.txMeta.pruned = false ∧ 0 < row.txMeta.fee ∧ row.txMeta.doNotRelay = 0
  attempt : row.txMeta.lastRelayedTime ≤ now
  young : now - row.txMeta.receiveTime ≤ txLivetime / 2
  blob : row.blob.isSome

def Checks (now : UInt64) (p : Pool) : Prop := ¬(timeMax < now ∨ now.toInt64 < p.nextCheck)

def returned (now : UInt64) (p : Pool) : List (Hash × Bytes × RelayMethod) := (getRelayableTransactions false now p).2.getD []

section

variable {now : UInt64} {s : Scan} {x : Hash × Row}

theorem addTx_txs {txid : Hash} {row : Row} (h : Waiting row.txMeta.getRelayMethod) (s : Scan) :
    (addTx now s txid row).txs = s.txs ++
      if now - row.txMeta.receiveTime ≤ txLivetime / 2 then
        (row.blob.map fun blob => (txid, blob, row.txMeta.getRelayMethod)).toList else [] := by
  have hblock : row.txMeta.getRelayMethod ≠ .block := by
    rintro hblock
    rw [hblock] at h
    rcases h with h | h <;> cases h
  rw [addTx, maxAge, if_neg hblock]
  split_ifs
  · cases row.blob <;> simp
  · exact (List.append_nil _).symm

theorem addTx_txs_cases (s : Scan) (txid : Hash) (row : Row) : (addTx now s txid row).txs = s.txs ∨
    ∃ blob, (addTx now s txid row).txs = s.txs ++ [(txid, blob, row.txMeta.getRelayMethod)] := by
  rw [addTx]
  split
  · cases row.blob with
    | none => exact .inl rfl
    | some blob => exact .inr ⟨blob, rfl⟩
  · exact .inl rfl

theorem scanTx_txs_cases (s : Scan) (x : Hash × Row) : (scanTx now s x).txs = s.txs ∨
    ∃ blob, (scanTx now s x).txs = s.txs ++ [(x.1, blob, x.2.txMeta.getRelayMethod)] := by
  rw [scanTx]
  split
  · exact .inl rfl
  split
  · split
    · split
      · exact .inl rfl
      · exact addTx_txs_cases { s with changeTimestamps := s.changeTimestamps ++ [x] } x.1 x.2
    · split
      · exact .inl rfl
      · exact addTx_txs_cases { s with changeTimestamps := s.changeTimestamps ++ [x] } x.1 x.2
    · exact .inl rfl
    all_goals
      split
      · exact .inl rfl
      · exact addTx_txs_cases s x.1 x.2
  · exact .inl rfl

theorem scanTx_txs (h : Waiting x.2.txMeta.getRelayMethod) (s : Scan) [Decidable (Due now x.2)] :
    (scanTx now s x).txs = s.txs ++
      if Due now x.2 then (x.2.blob.map fun blob => (x.1, blob, x.2.txMeta.getRelayMethod)).toList else [] := by
  have hmatches : x.2.txMeta.getRelayMethod.matchesCategory .relayable = true := by
    rcases h with h | h <;> rw [h] <;> rfl
  have hscan : scanTx now s x =
      if x.2.txMeta.pruned = false ∧ 0 < x.2.txMeta.fee ∧ x.2.txMeta.doNotRelay = 0 then
        if x.2.txMeta.lastRelayedTime > now then { s with nextCheck := min s.nextCheck x.2.txMeta.lastRelayedTime }
        else addTx now { s with changeTimestamps := s.changeTimestamps ++ [x] } x.1 x.2
      else s := by
    rw [scanTx]
    simp only [hmatches, Bool.not_true, Bool.false_eq_true, if_false]
    rcases h with h | h <;> rw [h]
  rw [hscan]
  by_cases hrelayable : x.2.txMeta.pruned = false ∧ 0 < x.2.txMeta.fee ∧ x.2.txMeta.doNotRelay = 0
  · rw [if_pos hrelayable]
    by_cases hlast : x.2.txMeta.lastRelayedTime > now
    · rw [if_pos hlast, if_neg (fun hdue => absurd hdue.attempt (UInt64.not_le.mpr hlast)), List.append_nil]
    · rw [if_neg hlast, addTx_txs h]
      congr 1
      by_cases hyoung : now - x.2.txMeta.receiveTime ≤ txLivetime / 2
      · cases hblob : x.2.blob with
        | none => simp
        | some blob =>
          rw [if_pos hyoung, if_pos ⟨h, hrelayable, UInt64.not_lt.mp hlast, hyoung, by rw [hblob]; rfl⟩]
      · rw [if_neg hyoung, if_neg fun hdue => hyoung hdue.young]
  · rw [if_neg hrelayable, if_neg fun hdue => hrelayable hdue.relayable, List.append_nil]

theorem mem_scanTx {y : Hash × Bytes × RelayMethod} (h : y ∈ (scanTx now s x).txs) :
    y ∈ s.txs ∨ (y.1 = x.1 ∧ y.2.2 = x.2.txMeta.getRelayMethod) := by
  rcases scanTx_txs_cases s x with heq | ⟨blob, heq⟩
  · exact .inl (heq ▸ h)
  · rw [heq, List.mem_append, List.mem_singleton] at h
    refine h.imp id fun hy => ?_
    rw [hy]
    exact ⟨rfl, rfl⟩

theorem subset_scanTx (x : Hash × Row) : s.txs ⊆ (scanTx now s x).txs := by
  rcases scanTx_txs_cases s x with heq | ⟨blob, heq⟩
  · rw [heq]
    exact List.Subset.refl _
  · rw [heq]
    exact List.subset_append_left _ _

theorem due_of_mem {l : List (Hash × Row)} {y : Hash × Bytes × RelayMethod} (hy : y ∈ (l.foldl (scanTx now) s).txs)
    (hwaiting : Waiting y.2.2) : y ∈ s.txs ∨ ∃ x ∈ l, y.1 = x.1 ∧ Due now x.2 := by
  classical
  induction l generalizing s with
  | nil => exact .inl hy
  | cons x l ih =>
    rcases ih hy with hscan | ⟨z, hz, hid, hdue⟩
    · rcases mem_scanTx hscan with hold | ⟨hid, hmethod⟩
      · exact .inl hold
      · rw [scanTx_txs (hmethod ▸ hwaiting), List.mem_append] at hscan
        refine hscan.imp id fun hnew => ?_
        split_ifs at hnew with hdue
        · exact ⟨x, List.mem_cons_self, hid, hdue⟩
        · cases hnew
    · exact .inr ⟨z, List.mem_cons_of_mem _ hz, hid, hdue⟩

theorem subset_foldl_scanTx (l : List (Hash × Row)) : s.txs ⊆ (l.foldl (scanTx now) s).txs := by
  induction l generalizing s with
  | nil => exact List.Subset.refl _
  | cons x l ih => exact List.Subset.trans (subset_scanTx x) ih

theorem Due.exists_mem {l : List (Hash × Row)} (hx : x ∈ l) (hdue : Due now x.2) :
    ∃ blob, (x.1, blob, x.2.txMeta.getRelayMethod) ∈ (l.foldl (scanTx now) s).txs := by
  classical
  obtain ⟨before, after, rfl⟩ := List.append_of_mem hx
  obtain ⟨blob, hblob⟩ := Option.isSome_iff_exists.mp hdue.blob
  rw [List.foldl_append, List.foldl_cons]
  refine ⟨blob, subset_foldl_scanTx after ?_⟩
  rw [scanTx_txs hdue.waiting, if_pos hdue, hblob]
  exact List.mem_append_right _ List.mem_cons_self

end

section

variable {p : Pool} {now : UInt64}

theorem table_getRelayableTransactions : (getRelayableTransactions false now p).1.table = p.table := by
  rw [getRelayableTransactions]
  split_ifs <;> rfl

theorem table_run (times : List UInt64) : (run p times).table = p.table := by
  induction times generalizing p with
  | nil => rfl
  | cons now times ih => exact ih.trans table_getRelayableTransactions

theorem returned_eq (h : Checks now p) : returned now p =
    (p.table.entries.foldl (scanTx now) ⟨[], [], now + maxRelayableCheck⟩).txs := by
  rw [returned, getRelayableTransactions, if_neg h]
  rfl

theorem exists_returned_iff {id : Hash} : (∃ blob method, Waiting method ∧ (id, blob, method) ∈ returned now p) ↔
    Checks now p ∧ ∃ row, p.table.find? id = some row ∧ Due now row := by
  by_cases h : Checks now p
  · rw [returned_eq h]
    constructor
    · rintro ⟨blob, method, hwaiting, hmem⟩
      rcases due_of_mem hmem hwaiting with hnone | ⟨x, hx, rfl, hdue⟩
      · cases hnone
      · exact ⟨h, x.2, (OrderedMap.mem_entries_iff hashKey_injective _ _ _).mp hx, hdue⟩
    · rintro ⟨-, row, hrow, hdue⟩
      obtain ⟨blob, hmem⟩ := hdue.exists_mem (x := (id, row)) ((OrderedMap.mem_entries_iff hashKey_injective _ _ _).mpr hrow)
      exact ⟨blob, _, hdue.waiting, hmem⟩
  · refine iff_of_false ?_ fun hchecks => h hchecks.1
    rintro ⟨blob, method, -, hmem⟩
    rw [returned, getRelayableTransactions, if_pos (not_not.mp h)] at hmem
    cases hmem

theorem returned_again_iff (p : Pool) (times : List UInt64) :
    (∀ done t mid t' rest, times = done ++ t :: mid ++ t' :: rest → ∀ id blob method blob' method' row,
      Waiting method → (id, blob, method) ∈ returned t (run p done) → (run p done).table.find? id = some row →
      Waiting method' → (id, blob', method') ∈ returned t' (run p (done ++ t :: mid)) →
      ¬t' < t + getRelayDelay row.txMeta.lastRelayedTime row.txMeta.receiveTime) ↔
    (∀ done t mid t' rest, times = done ++ t :: mid ++ t' :: rest → Checks t (run p done) →
      Checks t' (run p (done ++ t :: mid)) → ∀ id row, p.table.find? id = some row → Due t row → Due t' row →
      ¬t' < t + getRelayDelay row.txMeta.lastRelayedTime row.txMeta.receiveTime) := by
  constructor
  · intro h done t mid t' rest htimes hchecks hchecks' id row hrow hdue hdue'
    rw [← table_run done] at hrow
    obtain ⟨blob, method, hwaiting, hmem⟩ := exists_returned_iff.mpr ⟨hchecks, row, hrow, hdue⟩
    rw [table_run done, ← table_run (p := p) (done ++ t :: mid)] at hrow
    obtain ⟨blob', method', hwaiting', hmem'⟩ := exists_returned_iff.mpr ⟨hchecks', row, hrow, hdue'⟩
    rw [table_run (done ++ t :: mid), ← table_run (p := p) done] at hrow
    exact h done t mid t' rest htimes id blob method blob' method' row hwaiting hmem hrow hwaiting' hmem'
  · intro h done t mid t' rest htimes id blob method blob' method' row hwaiting hmem hrow hwaiting' hmem'
    obtain ⟨hchecks, row₁, hrow₁, hdue⟩ := exists_returned_iff.mp ⟨blob, method, hwaiting, hmem⟩
    obtain ⟨hchecks', row₂, hrow₂, hdue'⟩ := exists_returned_iff.mp ⟨blob', method', hwaiting', hmem'⟩
    rw [table_run] at hrow hrow₁ hrow₂
    rw [hrow, Option.some_inj] at hrow₁ hrow₂
    subst hrow₁ hrow₂
    exact h done t mid t' rest htimes hchecks hchecks' id row hrow hdue hdue'

def stemPool : Pool :=
  ⟨(∅ : ByHash Row).assign ⟨List.replicate 32 0, by decide⟩ ⟨⟨1, 1000, 1000, 0, 0, false, false, true, false⟩, some [7]⟩, 0⟩

theorem stemPool_returned_again : ∃ id blob row, (id, blob, .stem) ∈ returned 1000 stemPool ∧
    stemPool.table.find? id = some row ∧ (id, blob, .stem) ∈ returned 1120 (run stemPool [1000]) ∧
    (1120 : UInt64) < 1000 + getRelayDelay row.txMeta.lastRelayedTime row.txMeta.receiveTime := by
  refine ⟨⟨List.replicate 32 0, by decide⟩, [7], _, ?_, rfl, ?_, ?_⟩
  all_goals decide +kernel

end

end Velkavo.TxPool.Relayable
