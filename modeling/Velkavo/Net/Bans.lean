import Velkavo.Net.Address
import Velkavo.Containers.OrderedMap
import Mathlib.Data.Prod.Lex

namespace Velkavo.Net

open ByteCodec

/-- The order of `ipv4_network_subnet::less`, which does not see the host bits of the address. -/
def Ipv4NetworkSubnet.order (s : Ipv4NetworkSubnet) : ℕ ×ₗ ℕ := toLex (s.subnet.toNat, s.mask.toNat)

structure Bans (v6 : V6Text) where
  blockedHosts : OrderedMap stringOrder ℤ
  blockedSubnets : OrderedMap Ipv4NetworkSubnet.order ℤ
  host_blockable : ∀ x ∈ blockedHosts.entries,
    ∃ h : NetworkAddress, h.isBlockable = true ∧ h.hostStr v6 = x.1

structure SubnetScan where
  kept : List (Ipv4NetworkSubnet × ℤ)
  seconds : Option ℤ
  endRead : Bool

/--
The loop over the banned subnets from the iterator on. `logging` is whether the log line of an expired
entry is written, `endRead` whether something was read through the end iterator.
-/
def scanSubnets (now : ℤ) (logging : Bool) (address : Ipv4NetworkAddress) :
    List (Ipv4NetworkSubnet × ℤ) → SubnetScan
  | [] => ⟨[], none, false⟩
  | (subnet, limit) :: rest =>
    if now ≥ limit then
      -- the log line names the subnet of the iterator that `erase` returned
      let scan := scanSubnets now logging address rest
      { scan with endRead := (logging && rest.isEmpty) || scan.endRead }
    else if subnet.matches address then ⟨(subnet, limit) :: rest, some (limit - now), false⟩
    else
      let scan := scanSubnets now logging address rest
      { scan with kept := (subnet, limit) :: scan.kept }

theorem scanSubnets_sublist (now : ℤ) (logging : Bool) (address : Ipv4NetworkAddress)
    (l : List (Ipv4NetworkSubnet × ℤ)) : (scanSubnets now logging address l).kept.Sublist l := by
  induction l with
  | nil => exact .slnil
  | cons x rest ih =>
    rw [scanSubnets]
    split_ifs
    · exact ih.cons x
    · exact .refl _
    · exact ih.cons_cons x

structure Verdict (v6 : V6Text) where
  allowed : Bool
  seconds : Option ℤ
  endRead : Bool
  bans : Bans v6

namespace Bans

variable {v6 : V6Text}

def eraseHost (b : Bans v6) (host : Bytes) : Bans v6 where
  blockedHosts := b.blockedHosts.erase host
  blockedSubnets := b.blockedSubnets
  host_blockable x hx := b.host_blockable x (List.mem_filter.mp hx).1

def checkSubnets (now : ℤ) (logging : Bool) (b : Bans v6) (address : NetworkAddress) : Verdict v6 :=
  match address with
  | .ipv4 address =>
    let scan := scanSubnets now logging address b.blockedSubnets.entries
    { allowed := scan.seconds.isNone
      seconds := scan.seconds
      endRead := scan.endRead
      bans :=
        { b with
          blockedSubnets := ⟨scan.kept,
            b.blockedSubnets.sorted.sublist (scanSubnets_sublist now logging address _)⟩ } }
  | _ => ⟨true, none, false, b⟩

def isRemoteHostAllowed (now : ℤ) (logging : Bool) (b : Bans v6) (address : NetworkAddress) : Verdict v6 :=
  match b.blockedHosts.find? (address.hostStr v6) with
  | some limit =>
    if now ≥ limit then checkSubnets now logging (b.eraseHost (address.hostStr v6)) address
    else ⟨false, some (limit - now), false, b⟩
  | none => checkSubnets now logging b address

def timeMax : ℤ := 2 ^ 63 - 1

def banLimit (now seconds : ℤ) : ℤ := if now > timeMax - seconds then timeMax else now + seconds

def assignHost (b : Bans v6) (addr : NetworkAddress) (h : addr.isBlockable = true) (limit : ℤ) : Bans v6 where
  blockedHosts := b.blockedHosts.assign (addr.hostStr v6) limit
  blockedSubnets := b.blockedSubnets
  host_blockable x hx := by
    rcases OrderedMap.mem_assignEntries hx with rfl | ⟨y, hy, he⟩
    · exact ⟨addr, h, rfl⟩
    · rw [he]; exact b.host_blockable y hy

def blockHost (now : ℤ) (b : Bans v6) (addr : NetworkAddress) (seconds : ℤ) (addOnly : Bool) :
    Bool × Bans v6 :=
  if h : addr.isBlockable = true then
    let limit := banLimit now seconds
    match b.blockedHosts.find? (addr.hostStr v6) with
    | none => (true, b.assignHost addr h limit)
    | some old => if old < limit || !addOnly then (true, b.assignHost addr h limit) else (true, b)
  else (false, b)

def blockSubnet (now : ℤ) (b : Bans v6) (subnet : Ipv4NetworkSubnet) (seconds : ℤ) : Bool × Bans v6 :=
  (true, { b with blockedSubnets := b.blockedSubnets.assign subnet (banLimit now seconds) })

def HostBanned (now : ℤ) (b : Bans v6) (address : NetworkAddress) : Prop :=
  ∃ h : NetworkAddress, ∃ limit, (h.hostStr v6, limit) ∈ b.blockedHosts.entries ∧ now < limit ∧
    h.isSameHost address = true

def SubnetBanned (now : ℤ) (b : Bans v6) (address : NetworkAddress) : Prop :=
  ∃ address4, address = .ipv4 address4 ∧ ∃ x ∈ b.blockedSubnets.entries, now < x.2 ∧
    x.1.matches address4 = true

def TextBanned (now : ℤ) (b : Bans v6) (address : NetworkAddress) : Prop :=
  ∃ limit, b.blockedHosts.find? (address.hostStr v6) = some limit ∧ now < limit

def TwinBanned (now : ℤ) (b : Bans v6) (address : NetworkAddress) : Prop :=
  ∃ h : NetworkAddress, ∃ limit, (h.hostStr v6, limit) ∈ b.blockedHosts.entries ∧ now < limit ∧
    h.isSameHost address = true ∧ h.sameType address = false

def LastSubnetExpired (now : ℤ) (b : Bans v6) : Prop :=
  ∃ x, b.blockedSubnets.entries.getLast? = some x ∧ x.2 ≤ now

end Bans

theorem scanSubnets_seconds (now : ℤ) (logging : Bool) (address : Ipv4NetworkAddress)
    (l : List (Ipv4NetworkSubnet × ℤ)) :
    (scanSubnets now logging address l).seconds.isNone = false ↔
      ∃ x ∈ l, now < x.2 ∧ x.1.matches address = true := by
  induction l with
  | nil => simp [scanSubnets]
  | cons x rest ih =>
    rw [scanSubnets, List.exists_mem_cons_iff]
    split_ifs with hexp hm
    · rw [ih]
      exact (or_iff_right fun h => absurd h.1 (not_lt.mpr hexp)).symm
    · exact iff_of_true rfl (.inl ⟨not_le.mp hexp, hm⟩)
    · rw [ih]
      exact (or_iff_right fun h => hm h.2).symm

theorem scanSubnets_endRead (now : ℤ) (logging : Bool) (address : Ipv4NetworkAddress)
    (l : List (Ipv4NetworkSubnet × ℤ)) :
    (scanSubnets now logging address l).endRead = true ↔
      logging = true ∧ (∃ x, l.getLast? = some x ∧ x.2 ≤ now) ∧
        ¬ ∃ x ∈ l, now < x.2 ∧ x.1.matches address = true := by
  induction l with
  | nil => simp [scanSubnets]
  | cons x rest ih =>
    rw [scanSubnets, List.exists_mem_cons_iff]
    split_ifs with hexp hm
    · rw [or_iff_right fun h => absurd h.1 (not_lt.mpr hexp)]
      cases rest with
      | nil => simpa [scanSubnets] using fun _ => hexp
      | cons y ys => simpa only [List.isEmpty_cons, Bool.and_false, Bool.false_or, List.getLast?_cons_cons] using ih
    · exact iff_of_false (by simp) fun h => h.2.2 (.inl ⟨not_le.mp hexp, hm⟩)
    · rw [or_iff_right fun h => hm h.2]
      cases rest with
      | nil => simpa [scanSubnets] using fun _ => not_le.mp hexp
      | cons y ys => simpa only [List.getLast?_cons_cons] using ih

namespace Bans

variable {v6 : V6Text} (now : ℤ) (logging : Bool) (b : Bans v6) (address : NetworkAddress)

theorem checkSubnets_allowed :
    (checkSubnets now logging b address).allowed = false ↔ SubnetBanned now b address := by
  cases address with
  | ipv4 address =>
    refine (scanSubnets_seconds now logging address b.blockedSubnets.entries).trans ?_
    simp [SubnetBanned]
  | _ => simp [checkSubnets, SubnetBanned]

theorem checkSubnets_endRead :
    (checkSubnets now logging b address).endRead = true ↔
      logging = true ∧ (∃ address4, address = .ipv4 address4) ∧ LastSubnetExpired now b ∧
        ¬ SubnetBanned now b address := by
  cases address with
  | ipv4 address =>
    refine (scanSubnets_endRead now logging address b.blockedSubnets.entries).trans ?_
    simp [SubnetBanned, LastSubnetExpired]
  | _ => simp [checkSubnets]

theorem isRemoteHostAllowed_cases :
    (TextBanned now b address ∧ (isRemoteHostAllowed now logging b address).allowed = false ∧
      (isRemoteHostAllowed now logging b address).endRead = false) ∨
    (¬ TextBanned now b address ∧ ∃ b' : Bans v6, b'.blockedSubnets = b.blockedSubnets ∧
      isRemoteHostAllowed now logging b address = checkSubnets now logging b' address) := by
  unfold isRemoteHostAllowed TextBanned
  cases b.blockedHosts.find? (address.hostStr v6) with
  | none => exact .inr ⟨by simp, b, rfl, rfl⟩
  | some limit =>
    by_cases hexp : now ≥ limit
    · exact .inr ⟨by simpa using hexp, b.eraseHost (address.hostStr v6), rfl, by simp [hexp]⟩
    · exact .inl ⟨⟨limit, rfl, not_le.mp hexp⟩, by simp [hexp]⟩

theorem isRemoteHostAllowed_eq_false :
    (isRemoteHostAllowed now logging b address).allowed = false ↔
      TextBanned now b address ∨ SubnetBanned now b address := by
  obtain ⟨ht, ha, -⟩ | ⟨ht, b', hb', he⟩ := isRemoteHostAllowed_cases now logging b address
  · exact iff_of_true ha (.inl ht)
  · rw [he, checkSubnets_allowed, or_iff_right ht, SubnetBanned, SubnetBanned, hb']

theorem isRemoteHostAllowed_endRead :
    (isRemoteHostAllowed now logging b address).endRead = true ↔
      logging = true ∧ (∃ address4, address = .ipv4 address4) ∧ LastSubnetExpired now b ∧
        ¬ (TextBanned now b address ∨ SubnetBanned now b address) := by
  obtain ⟨ht, -, hr⟩ | ⟨ht, b', hb', he⟩ := isRemoteHostAllowed_cases now logging b address
  · exact iff_of_false (by simp [hr]) fun h => h.2.2.2 (.inl ht)
  · rw [he, checkSubnets_endRead, or_iff_right ht, SubnetBanned, SubnetBanned, LastSubnetExpired,
      LastSubnetExpired, hb']

theorem textBanned_iff :
    TextBanned now b address ↔ ∃ h : NetworkAddress, ∃ limit,
      (h.hostStr v6, limit) ∈ b.blockedHosts.entries ∧ now < limit ∧
        h.isSameHost address = true ∧ h.sameType address = true := by
  constructor
  · rintro ⟨limit, hfind, hlt⟩
    obtain ⟨key, hmem, hkey⟩ := (b.blockedHosts.find?_eq_some_iff _ _).mp hfind
    obtain ⟨h, -, hh⟩ := b.host_blockable _ hmem
    have heq : h.hostStr v6 = address.hostStr v6 := hh.trans (stringOrder_injective hkey)
    obtain ⟨hs, hsame⟩ := (NetworkAddress.hostStr_eq_iff v6 h address).mp heq
    exact ⟨h, limit, by rw [hh]; exact hmem, hlt, hsame, hs⟩
  · rintro ⟨h, limit, hmem, hlt, hsame, hs⟩
    have heq := (NetworkAddress.hostStr_eq_iff v6 h address).mpr ⟨hs, hsame⟩
    exact ⟨limit, (b.blockedHosts.find?_eq_some_iff _ _).mpr ⟨_, hmem, by rw [heq]⟩, hlt⟩

theorem hostBanned_iff : HostBanned now b address ↔ TextBanned now b address ∨ TwinBanned now b address := by
  rw [textBanned_iff]
  constructor
  · rintro ⟨h, limit, hmem, hlt, hsame⟩
    cases hs : h.sameType address with
    | true => exact .inl ⟨h, limit, hmem, hlt, hsame, hs⟩
    | false => exact .inr ⟨h, limit, hmem, hlt, hsame, hs⟩
  · rintro (⟨h, limit, hmem, hlt, hsame, -⟩ | ⟨h, limit, hmem, hlt, hsame, -⟩)
    · exact ⟨h, limit, hmem, hlt, hsame⟩
    · exact ⟨h, limit, hmem, hlt, hsame⟩

theorem isRemoteHostAllowed_correct_iff :
    ((isRemoteHostAllowed now logging b address).endRead = false ∧
      ((isRemoteHostAllowed now logging b address).allowed = false ↔
        HostBanned now b address ∨ SubnetBanned now b address)) ↔
    (logging = true → (∃ address4, address = .ipv4 address4) → LastSubnetExpired now b →
      TextBanned now b address ∨ SubnetBanned now b address) ∧
    (TwinBanned now b address → TextBanned now b address ∨ SubnetBanned now b address) := by
  refine and_congr ?_ ?_
  · rw [← Bool.not_eq_true, isRemoteHostAllowed_endRead]
    tauto
  · rw [isRemoteHostAllowed_eq_false, hostBanned_iff]
    tauto

def empty (v6 : V6Text) : Bans v6 := ⟨∅, ∅, fun _ hx => absurd hx List.not_mem_nil⟩

def rawText : V6Text where
  run a := 0x3a :: (a.bytes.bytes ++ littleEndian 4 a.scopeId.toNat)
  injective a a' h := by
    obtain ⟨hb, hs⟩ := List.append_inj (List.cons.inj h).2 (by rw [a.bytes.length_eq, a'.bytes.length_eq])
    have hid := congrArg ofLittleEndian hs
    rw [ofLittleEndian_littleEndian 4 _ a.scopeId.toNat_lt,
      ofLittleEndian_littleEndian 4 _ a'.scopeId.toNat_lt] at hid
    cases a
    cases a'
    simp only [AddressV6.mk.injEq]
    exact ⟨Blob.ext hb, UInt32.toNat_inj.mp hid⟩
  colon a := by simp

def lanHost : Ipv4NetworkAddress := ⟨Quad.word ⟨1, 2, 3, 4⟩, 0⟩

def mappedLanHost : NetworkAddress :=
  .ipv6 ⟨⟨List.replicate 10 0 ++ [0xff, 0xff, 1, 2, 3, 4], rfl⟩, 0⟩ 0

theorem isRemoteHostAllowed_expired_and_mapped :
    (isRemoteHostAllowed 10 true (blockSubnet 0 (empty rawText) ⟨Quad.word ⟨9, 0, 0, 0⟩, 8⟩ 10).2
      (.ipv4 lanHost)).endRead = true ∧
    (isRemoteHostAllowed 5 true (blockHost 0 (empty rawText) (.ipv4 lanHost) 100 false).2
      mappedLanHost).allowed = true ∧
    NetworkAddress.isSameHost (.ipv4 lanHost) mappedLanHost = true ∧
    (isRemoteHostAllowed 5 true (blockHost 0 (empty rawText) (.ipv4 lanHost) 100 false).2
      (.ipv4 lanHost)).allowed = false := by
  refine ⟨by decide, by decide, by decide, by decide⟩

end Bans

end Velkavo.Net
