import Velkavo.Levin.AsyncHandler

namespace Velkavo.Levin

open ByteCodec

structure Packet where
  head : BucketHead2
  body : Bytes

structure Packet.Whole (p : Packet) : Prop where
  signature : p.head.signature = levinSignature
  size : p.head.cb.toNat = p.body.length

def Packet.bytes (p : Packet) : Bytes := bucketHead2.write p.head ++ p.body

def wireOf (l : List Packet) : Bytes := l.flatMap Packet.bytes

variable {e : Endpoint} {maxPacketSize : ℕ}

abbrev Endpoint.Allows (e : Endpoint) (maxPacketSize : ℕ) (command : UInt32) (size : ℕ) : Prop :=
  size ≤ min maxPacketSize (e.maxBytes command)

structure Open (limit : UInt64) (fragments : Bytes) (events : List Event) (s : Handler) : Prop where
  limit : s.maxPacketSize = limit
  closeCalled : s.closeCalled = false
  fragments : s.fragmentBuffer = fragments
  events : s.events = events

def fragmentsAfter (n : ℕ) (p : Packet) : ℕ :=
  if p.head.flags &&& (packetRequest ||| packetResponse) ≠ 0 then n
  else if p.head.flags &&& (packetBegin ||| packetEnd) = packetBegin ||| packetEnd then n
  else if p.head.flags &&& packetEnd ≠ 0 then 0
  else (if p.head.flags &&& packetBegin ≠ 0 then 0 else n) + p.body.length

def Absorbs (e : Endpoint) (limit : UInt64) (p : Packet) (fragments : Bytes) (events : List Event) (fragments' : Bytes)
    (events' : List Event) : Prop :=
  p.Whole ∧ e.Allows limit.toNat p.head.command p.body.length ∧
    fragments'.length = fragmentsAfter fragments.length p ∧ ∀ s rest, Open limit fragments events s → s.currentHead = p.head →
      s.oponentProtocolVer = p.head.protocolVersion → s.cacheInBuffer = p.body ++ rest →
      ∃ s', handleBody e limit.toNat s = (s', true) ∧ Open limit fragments' events' s' ∧ s'.state = .head ∧
        s'.cacheInBuffer = rest

inductive Absorbed (e : Endpoint) (limit : UInt64) :
    List Packet → Bytes → List Event → Bytes → List Event → Prop
  | nil (fragments : Bytes) (events : List Event) : Absorbed e limit [] fragments events fragments events
  | cons {p : Packet} {l : List Packet} {f₁ f₂ f₃ : Bytes} {v₁ v₂ v₃ : List Event} (first : Absorbs e limit p f₁ v₁ f₂ v₂)
      (rest : Absorbed e limit l f₂ v₂ f₃ v₃) : Absorbed e limit (p :: l) f₁ v₁ f₃ v₃

variable {l : List Packet} {v₁ v v' : List Event} {fuel payloadSpace : ℕ} {unread f f' payload : Bytes}
  {command : UInt32}

theorem Absorbed.append {l' : List Packet} {f₁ f₂ f₃ : Bytes} {v₂ v₃ : List Event} {e : Endpoint} {limit : UInt64}
    (h : Absorbed e limit l f₁ v₁ f₂ v₂) (h' : Absorbed e limit l' f₂ v₂ f₃ v₃) :
    Absorbed e limit (l ++ l') f₁ v₁ f₃ v₃ := by
  induction h with
  | nil => exact h'
  | cons hp _ ih => exact .cons hp (ih h')

inductive Waits (limit : UInt64) (unread fragments : Bytes) (events : List Event) : List Packet → Handler → Prop
  | head {l : List Packet} {s : Handler} (ready : Open limit fragments events s) (state : s.state = .head)
      (stream : s.cacheInBuffer ++ unread = wireOf l) (short : s.cacheInBuffer.length < sizeofHead) :
      Waits limit unread fragments events l s
  | body {p : Packet} {l : List Packet} {s : Handler} (ready : Open limit fragments events s) (state : s.state = .body)
      (current : s.currentHead = p.head) (version : s.oponentProtocolVer = p.head.protocolVersion)
      (stream : s.cacheInBuffer ++ unread = p.body ++ wireOf l) (short : s.cacheInBuffer.length < p.body.length) :
      Waits limit unread fragments events (p :: l) s

theorem handleHead_packet {p : Packet} {s : Handler} {rest : Bytes} (hwhole : p.Whole)
    (hallows : e.Allows maxPacketSize p.head.command p.body.length)
    (hcache : s.cacheInBuffer = bucketHead2.write p.head ++ rest) :
    handleHead e maxPacketSize s =
      ({ s with currentHead := p.head, cacheInBuffer := rest, state := .body,
                oponentProtocolVer := p.head.protocolVersion }, true) := by
  rw [handleHead, hcache, read_write_bucketHead2]
  dsimp only
  rw [if_neg (not_not_intro hwhole.signature), hwhole.size, decide_eq_true hallows]

theorem take_write_bucketHead2 {p : Packet} (hwhole : p.Whole) :
    (bucketHead2.write p.head).take 8 = littleEndian 8 levinSignature.toNat := by
  rw [← hwhole.signature]
  exact List.take_left' (littleEndian_length 8 _)

variable {limit : UInt64}

def Settles (e : Endpoint) (limit : UInt64) (unread : Bytes) (l : List Packet) (f : Bytes) (v : List Event) (f' : Bytes)
    (v' : List Event) (r : Handler × Bool) : Prop :=
  ∃ done rest f₁ v₁ s', l = done ++ rest ∧ Absorbed e limit done f v f₁ v₁ ∧ Absorbed e limit rest f₁ v₁ f' v' ∧
    r = (s', true) ∧ Waits limit unread f₁ v₁ rest s'

theorem Settles.cons {unread : Bytes} {p : Packet} {l : List Packet} {f₁ f₂ f₃ : Bytes} {v₁ v₂ v₃ : List Event}
    {r : Handler × Bool} (hp : Absorbs e limit p f₁ v₁ f₂ v₂) (h : Settles e limit unread l f₂ v₂ f₃ v₃ r) :
    Settles e limit unread (p :: l) f₁ v₁ f₃ v₃ r := by
  obtain ⟨done, rest, f, v, s', rfl, hdone, hrest, hr, hwaits⟩ := h
  exact ⟨p :: done, rest, f, v, s', rfl, .cons hp hdone, hrest, hr, hwaits⟩

theorem exists_of_append_eq {a b u w : Bytes} (h : a ++ u = b ++ w) (hle : b.length ≤ a.length) :
    ∃ rest, a = b ++ rest ∧ rest ++ u = w := by
  obtain ⟨c, hb, hu⟩ | ⟨c, ha, hw⟩ := List.append_eq_append_iff.mp h
  · have hc : c = [] := by
      rw [hb, List.length_append] at hle
      exact List.eq_nil_of_length_eq_zero (by omega)
    subst hc
    exact ⟨[], by simpa using hb.symm, by simpa using hu⟩
  · exact ⟨c, ha, hw.symm⟩

theorem recvLoop_body {p : Packet} {f₁ f₂ f₃ : Bytes} {v₂ v₃ : List Event}
    {s : Handler} (hp : Absorbs e limit p f₁ v₁ f₂ v₂) (hrest : Absorbed e limit l f₂ v₂ f₃ v₃)
    (hnext : ∀ s', Open limit f₂ v₂ s' → s'.state = .head → s'.cacheInBuffer ++ unread = wireOf l →
      s'.cacheInBuffer.length ≤ s.cacheInBuffer.length →
      Settles e limit unread l f₂ v₂ f₃ v₃ (recvLoop e limit.toNat fuel s'))
    (hopen : Open limit f₁ v₁ s) (hstate : s.state = .body) (hcurrent : s.currentHead = p.head)
    (hversion : s.oponentProtocolVer = p.head.protocolVersion)
    (hstream : s.cacheInBuffer ++ unread = p.body ++ wireOf l) :
    Settles e limit unread (p :: l) f₁ v₁ f₃ v₃ (recvLoop e limit.toNat (fuel + 1) s) := by
  rw [recvLoop, hstate]
  dsimp only
  rw [hcurrent, hp.1.size]
  by_cases hshort : s.cacheInBuffer.length < p.body.length
  · rw [if_pos hshort]
    exact ⟨[], p :: l, f₁, v₁, s, rfl, .nil f₁ v₁, .cons hp hrest, rfl,
      .body hopen hstate hcurrent hversion hstream hshort⟩
  · obtain ⟨rest, hcache, hunread⟩ := exists_of_append_eq hstream (Nat.le_of_not_lt hshort)
    obtain ⟨s', hs', hopen', hstate', hcache'⟩ := hp.2.2.2 s rest hopen hcurrent hversion hcache
    rw [if_neg hshort, hs', if_pos rfl]
    apply Settles.cons hp
    apply hnext s' hopen' hstate'
    · rw [hcache', hunread]
    · rw [hcache', hcache, List.length_append]
      omega

theorem wireOf_cons (p : Packet) (l : List Packet) :
    wireOf (p :: l) = bucketHead2.write p.head ++ (p.body ++ wireOf l) := by
  rw [wireOf, List.flatMap_cons, Packet.bytes, List.append_assoc]
  rfl

theorem signature_of_stream {cache : Bytes} {p : Packet} (hwhole : p.Whole)
    (h : cache ++ unread = wireOf (p :: l)) :
    cache.length < 8 ∨ cache.take 8 = littleEndian 8 levinSignature.toNat := by
  by_cases hlong : cache.length < 8
  · exact .inl hlong
  · have htake := congrArg (List.take 8) h
    rw [wireOf_cons, List.take_append_of_le_length (by omega),
      List.take_append_of_le_length (by rw [length_write_bucketHead2]; decide), take_write_bucketHead2 hwhole] at htake
    exact .inr htake

theorem recvLoop_head {s : Handler}
    (h : Absorbed e limit l f v f' v') (hopen : Open limit f v s) (hstate : s.state = .head)
    (hstream : s.cacheInBuffer ++ unread = wireOf l) (hfuel : 2 * s.cacheInBuffer.length < fuel) :
    Settles e limit unread l f v f' v' (recvLoop e limit.toNat fuel s) := by
  induction h generalizing s fuel with
  | nil f v =>
    obtain ⟨fuel, rfl⟩ : ∃ n, fuel = n + 1 := ⟨fuel - 1, by omega⟩
    have hempty : s.cacheInBuffer = [] := (List.append_eq_nil_iff.mp hstream).1
    have hshort : s.cacheInBuffer.length < 8 := by
      rw [hempty]
      decide
    have hhead : s.cacheInBuffer.length < sizeofHead := hshort.trans (by decide)
    rw [recvLoop, hstate]
    dsimp only
    rw [if_pos hhead, decide_eq_true (.inl hshort)]
    exact ⟨[], [], f, v, s, rfl, .nil f v, .nil f v, rfl, .head hopen hstate hstream hhead⟩
  | @cons p l f₁ f₂ f₃ v₁ v₂ v₃ hp hrest ih =>
    obtain ⟨fuel, rfl⟩ : ∃ n, fuel = n + 1 := ⟨fuel - 1, by omega⟩
    rw [recvLoop, hstate]
    dsimp only
    by_cases hshort : s.cacheInBuffer.length < sizeofHead
    · rw [if_pos hshort, decide_eq_true (signature_of_stream hp.1 hstream)]
      exact ⟨[], p :: l, f₁, v₁, s, rfl, .nil f₁ v₁, .cons hp hrest, rfl, .head hopen hstate hstream hshort⟩
    · have hlong : (bucketHead2.write p.head).length ≤ s.cacheInBuffer.length := by
        rw [length_write_bucketHead2]
        omega
      rw [wireOf_cons] at hstream
      obtain ⟨rest, hcache, hstream⟩ := exists_of_append_eq hstream hlong
      have hlength : s.cacheInBuffer.length = 33 + rest.length := by
        rw [hcache, List.length_append, length_write_bucketHead2]
        rfl
      rw [if_neg hshort, handleHead_packet hp.1 hp.2.1 hcache, if_pos rfl]
      obtain ⟨fuel, rfl⟩ : ∃ n, fuel = n + 1 := ⟨fuel - 1, by omega⟩
      have hopen₁ : Open limit f₁ v₁ { s with currentHead := p.head, cacheInBuffer := rest, state := .body,
                                              oponentProtocolVer := p.head.protocolVersion } :=
        ⟨hopen.limit, hopen.closeCalled, hopen.fragments, hopen.events⟩
      apply recvLoop_body hp hrest _ hopen₁ rfl rfl rfl hstream
      intro s' hopen' hstate' hstream' hless
      have hless : s'.cacheInBuffer.length ≤ rest.length := hless
      exact ih hopen' hstate' hstream' (by omega)

theorem handleRecv_settles {bytes : Bytes} {s : Handler}
    (h : Absorbed e limit l f v f' v') (hwaits : Waits limit (bytes ++ unread) f v l s)
    (hfits : bytes.length + s.cacheInBuffer.length + f.length ≤ limit.toNat) :
    Settles e limit unread l f v f' v' (handleRecv e s bytes) := by
  have hopen : Open limit f v s := by
    cases hwaits with
    | head ready => exact ready
    | body ready => exact ready
  have hopen' : Open limit f v { s with cacheInBuffer := s.cacheInBuffer ++ bytes } :=
    ⟨hopen.limit, hopen.closeCalled, hopen.fragments, hopen.events⟩
  have hrun : handleRecv e s bytes = recvLoop e limit.toNat (2 * (s.cacheInBuffer ++ bytes).length + 2)
      { s with cacheInBuffer := s.cacheInBuffer ++ bytes } := by
    rw [handleRecv]
    dsimp only
    rw [hopen.closeCalled, hopen.limit, hopen.fragments, if_neg Bool.false_ne_true, if_neg (by omega),
      if_neg (by omega), if_neg (by omega)]
  rw [hrun]
  cases hwaits with
  | head ready state stream short =>
    apply recvLoop_head h hopen' state
    · rw [List.append_assoc, stream]
    · dsimp only
      omega
  | @body p l _ ready state current version stream short =>
    cases h with
    | cons hp hrest =>
      apply recvLoop_body hp hrest _ hopen' state current version
      · rw [List.append_assoc, stream]
      · intro s' hopen'' hstate' hstream' hless
        have hless : s'.cacheInBuffer.length ≤ (s.cacheInBuffer ++ bytes).length := hless
        exact recvLoop_head hrest hopen'' hstate' hstream' (by omega)

def buffered (collected : ℕ) : List Packet → ℕ → ℕ
  | [], n => collected + n
  | p :: l, n =>
    if n < sizeofHead then collected + n
    else if n < sizeofHead + p.body.length then collected + (n - sizeofHead)
    else buffered (fragmentsAfter collected p) l (n - (sizeofHead + p.body.length))

def ReadsFit (limit : ℕ) (packets : List Packet) : ℕ → List Bytes → Prop
  | _, [] => True
  | n, bytes :: rest => bytes.length + buffered 0 packets n ≤ limit ∧ ReadsFit limit packets (n + bytes.length) rest

instance decidableReadsFit (limit : ℕ) (packets : List Packet) :
    ∀ (n : ℕ) (reads : List Bytes), Decidable (ReadsFit limit packets n reads)
  | _, [] => .isTrue trivial
  | n, bytes :: rest =>
    have := decidableReadsFit limit packets (n + bytes.length) rest
    inferInstanceAs (Decidable (_ ∧ _))

theorem length_wireOf_cons (p : Packet) (l : List Packet) :
    (wireOf (p :: l)).length = sizeofHead + p.body.length + (wireOf l).length := by
  rw [wireOf_cons, List.length_append, List.length_append, length_write_bucketHead2, Nat.add_assoc]

theorem wireOf_append (l l' : List Packet) : wireOf (l ++ l') = wireOf l ++ wireOf l' := List.flatMap_append

theorem buffered_append {done rest : List Packet} {f₁ : Bytes}
    (h : Absorbed e limit done f v f₁ v₁) (n : ℕ) :
    buffered f.length (done ++ rest) ((wireOf done).length + n) = buffered f₁.length rest n := by
  induction h with
  | nil f v => rw [List.nil_append, wireOf, List.flatMap_nil, List.length_nil, Nat.zero_add]
  | @cons p l f₁ f₂ f₃ v₁ v₂ v₃ hp hrest ih =>
    rw [List.cons_append, length_wireOf_cons, buffered, if_neg (by omega), if_neg (by omega), ← hp.2.2.1, ← ih]
    congr 1
    omega

theorem Waits.position {s : Handler} (h : Waits limit unread f v l s) :
    ∃ m, m + unread.length = (wireOf l).length ∧ buffered f.length l m = f.length + s.cacheInBuffer.length := by
  cases h with
  | head ready state stream short =>
    refine ⟨s.cacheInBuffer.length, by rw [← stream, List.length_append], ?_⟩
    cases l with
    | nil => rfl
    | cons p l => rw [buffered, if_pos short]
  | @body p l _ ready state current version stream short =>
    have hstream := congrArg List.length stream
    rw [List.length_append, List.length_append] at hstream
    refine ⟨sizeofHead + s.cacheInBuffer.length, by rw [length_wireOf_cons]; omega, ?_⟩
    rw [buffered, if_neg (by omega), if_pos (by omega)]
    omega

theorem Waits.all_taken {s : Handler}
    (h : Waits limit [] f v l s) (habs : Absorbed e limit l f v f' v') :
    Open limit f' v' s ∧ s.state = .head ∧ s.cacheInBuffer = [] := by
  cases h with
  | head ready state stream short =>
    rw [List.append_nil] at stream
    cases habs with
    | nil => exact ⟨ready, state, stream⟩
    | cons hp hrest =>
      rw [stream, length_wireOf_cons] at short
      omega
  | body ready state current version stream short =>
    rw [List.append_nil] at stream
    rw [stream, List.length_append] at short
    omega

theorem receive_of_waits {done rest : List Packet} {v₀ : List Event} {s : Handler}
    {reads : List Bytes} {n : ℕ} (hdone : Absorbed e limit done [] v₀ f v) (hrest : Absorbed e limit rest f v f' v')
    (hwaits : Waits limit reads.flatten f v rest s)
    (hn : n + reads.flatten.length = (wireOf (done ++ rest)).length)
    (hfits : ReadsFit limit.toNat (done ++ rest) n reads) :
    ∃ s', receive e s reads = (s', true) ∧ Open limit f' v' s' ∧ s'.state = .head ∧ s'.cacheInBuffer = [] := by
  induction reads generalizing done rest f v s n with
  | nil => exact ⟨s, rfl, hwaits.all_taken hrest⟩
  | cons bytes reads ih =>
    rw [List.flatten_cons] at hwaits hn
    obtain ⟨m, hm, hheld⟩ := hwaits.position
    have hall : (wireOf (done ++ rest)).length = (wireOf done).length + (wireOf rest).length := by
      rw [wireOf_append, List.length_append]
    have hposition : n = (wireOf done).length + m := by omega
    have hbuffered : buffered 0 (done ++ rest) n = f.length + s.cacheInBuffer.length := by
      rw [hposition, ← hheld]
      exact buffered_append hdone m
    have hread := hfits.1
    rw [hbuffered] at hread
    obtain ⟨done', rest', f₁, v₁, s', rfl, hdone', hrest', hrun, hwaits'⟩ :=
      handleRecv_settles hrest hwaits (by omega)
    rw [List.length_append] at hn
    rw [← List.append_assoc] at hn hfits
    rw [receive, hrun, if_pos rfl]
    exact ih (hdone.append hdone') hrest' hwaits' (by omega) hfits.2

inductive Message
  | notify (command : UInt32) (payload : Bytes)
  | noise (noiseBytes : ℕ)
  | fragmented (noiseSize : ℕ) (command : UInt32) (payload : Bytes)

def Message.bytes? : Message → Option Bytes
  | .notify command payload => some (finalizeNotify command payload)
  | .noise noiseBytes => makeNoiseNotify noiseBytes
  | .fragmented noiseSize command payload => makeFragmentedNotify noiseSize command payload

def Message.delivered : Message → List Event
  | .notify command payload => [.notify command payload]
  | .noise _ => []
  | .fragmented noiseSize command payload =>
    if sizeofHead + payload.length ≤ noiseSize then
      [.notify command (payload ++ List.replicate (noiseSize - (sizeofHead + payload.length)) 0)]
    else [.notify command payload]

def Message.Within (e : Endpoint) (limit : ℕ) : Message → Prop
  | .notify command payload => e.Allows limit command payload.length
  | .noise noiseBytes => sizeofHead ≤ noiseBytes ∧ e.Allows limit 0 (noiseBytes - sizeofHead)
  | .fragmented noiseSize command payload =>
    sizeofHead * 2 ≤ noiseSize ∧
      if sizeofHead + payload.length ≤ noiseSize then e.Allows limit command (noiseSize - sizeofHead)
      else e.Allows limit 0 (noiseSize - sizeofHead) ∧ e.Allows limit command payload.length

instance (e : Endpoint) (limit : ℕ) : (m : Message) → Decidable (m.Within e limit)
  | .notify _ _ => inferInstanceAs (Decidable (_ ≤ _))
  | .noise _ => inferInstanceAs (Decidable (_ ∧ _))
  | .fragmented _ _ _ => inferInstanceAs (Decidable (_ ∧ ite _ _ _))

def fragmentPackets (payloadSpace : ℕ) : ℕ → Bytes → List Packet
  | 0, _ => []
  | fuel + 1, payload =>
    if payload.drop payloadSpace = [] then
      [⟨makeHeader 0 payloadSpace packetEnd false, payload ++ List.replicate (payloadSpace - payload.length) 0⟩]
    else
      ⟨makeHeader 0 payloadSpace 0 false, payload.take payloadSpace⟩ ::
        fragmentPackets payloadSpace fuel (payload.drop payloadSpace)

def Message.packets : Message → List Packet
  | .notify command payload => [⟨makeHeader command payload.length packetRequest false, payload⟩]
  | .noise noiseBytes =>
    [⟨makeHeader 0 (noiseBytes - sizeofHead) (packetBegin ||| packetEnd) false,
      List.replicate (noiseBytes - sizeofHead) 0⟩]
  | .fragmented noiseSize command payload =>
    if sizeofHead + payload.length ≤ noiseSize then
      [⟨makeHeader command (noiseSize - sizeofHead) packetRequest false,
        payload ++ List.replicate (noiseSize - (sizeofHead + payload.length)) 0⟩]
    else
      let message := finalizeNotify command payload
      let payloadSpace := noiseSize - sizeofHead
      ⟨makeHeader 0 payloadSpace packetBegin false, message.take payloadSpace⟩ ::
        fragmentPackets payloadSpace message.length (message.drop payloadSpace)

theorem writeFragments_nil (payloadSpace fuel copySize : ℕ) :
    writeFragments payloadSpace fuel [] copySize = ([], copySize) := by
  cases fuel <;> rfl

theorem writeFragments_eq (hspace : 0 < payloadSpace)
    (hpayload : payload ≠ []) (hfuel : payload.length ≤ fuel) (copySize : ℕ) :
    (writeFragments payloadSpace fuel payload copySize).1 ++
      List.replicate (payloadSpace - (writeFragments payloadSpace fuel payload copySize).2) 0 =
        wireOf (fragmentPackets payloadSpace fuel payload) := by
  induction fuel generalizing payload copySize with
  | zero => exact absurd (List.eq_nil_of_length_eq_zero (Nat.le_zero.mp hfuel)) hpayload
  | succ fuel ih =>
    rw [writeFragments, if_neg hpayload, fragmentPackets]
    dsimp only
    by_cases hlast : payload.drop payloadSpace = []
    · have hall : payload.take payloadSpace = payload := List.take_of_length_le (List.drop_eq_nil_iff.mp hlast)
      rw [if_pos hlast, if_pos hlast, hlast, writeFragments_nil, hall, wireOf_cons]
      simp [wireOf]
    · have hshorter : (payload.drop payloadSpace).length ≤ fuel := by
        have := List.length_pos_iff.mpr hpayload
        rw [List.length_drop]
        omega
      rw [if_neg hlast, if_neg hlast, wireOf_cons, ← ih hlast hshorter (payload.take payloadSpace).length]
      simp only [List.append_assoc]

theorem length_finalizeNotify (command : UInt32) (payload : Bytes) :
    (finalizeNotify command payload).length = sizeofHead + payload.length := by
  rw [finalizeNotify, finalize, List.length_append, length_write_bucketHead2]

theorem Message.wireOf_packets {m : Message} {bytes : Bytes} (h : m.bytes? = some bytes) : wireOf m.packets = bytes := by
  cases m with
  | notify command payload =>
    cases h
    rw [Message.packets, wireOf_cons]
    simp [wireOf, finalizeNotify, finalize, makeHeader]
  | noise noiseBytes =>
    rw [Message.bytes?, makeNoiseNotify] at h
    split_ifs at h
    cases h
    rw [Message.packets, wireOf_cons]
    simp [wireOf]
  | fragmented noiseSize command payload =>
    rw [Message.bytes?, makeFragmentedNotify] at h
    rw [Message.packets]
    split_ifs at h ⊢ with hroom hone
    · cases h
      have hsize : (payload ++ List.replicate (noiseSize - (sizeofHead + payload.length)) 0).length =
          noiseSize - sizeofHead := by
        rw [List.length_append, List.length_replicate]
        omega
      rw [finalizeNotify, finalize, hsize, wireOf_cons]
      simp [wireOf, makeHeader]
    · cases h
      have hlength := length_finalizeNotify command payload
      have hhead : sizeofHead = 33 := rfl
      have hspace : 0 < noiseSize - sizeofHead := by omega
      have hmore : (finalizeNotify command payload).drop (noiseSize - sizeofHead) ≠ [] := by
        rw [ne_eq, List.drop_eq_nil_iff, hlength]
        omega
      have hfuel : ((finalizeNotify command payload).drop (noiseSize - sizeofHead)).length ≤
          (finalizeNotify command payload).length := by
        rw [List.length_drop]
        omega
      rw [wireOf_cons, Nat.sub_right_comm,
        ← writeFragments_eq hspace hmore hfuel ((finalizeNotify command payload).take (noiseSize - sizeofHead)).length]
      simp only [List.append_assoc]

theorem length_wireOf {n : ℕ} (h : ∀ p ∈ l, sizeofHead + p.body.length = n) :
    (wireOf l).length = l.length * n := by
  induction l with
  | nil => rw [List.length_nil, Nat.zero_mul, wireOf, List.flatMap_nil, List.length_nil]
  | cons p l ih =>
    rw [length_wireOf_cons, h p List.mem_cons_self, ih fun q hq => h q (List.mem_cons_of_mem p hq), List.length_cons,
      Nat.succ_mul, Nat.add_comm]

theorem length_body_fragmentPackets {p : Packet}
    (h : p ∈ fragmentPackets payloadSpace fuel payload) : p.body.length = payloadSpace := by
  induction fuel generalizing payload with
  | zero => cases h
  | succ fuel ih =>
    rw [fragmentPackets] at h
    split_ifs at h with hlast
    · rw [List.mem_singleton.mp h, List.length_append, List.length_replicate]
      have := List.drop_eq_nil_iff.mp hlast
      omega
    · rcases List.mem_cons.mp h with rfl | hrest
      · rw [List.drop_eq_nil_iff] at hlast
        rw [List.length_take]
        omega
      · exact ih hrest

theorem length_makeFragmentedNotify {noiseSize : ℕ} {bytes : Bytes}
    (h : makeFragmentedNotify noiseSize command payload = some bytes) : ∃ k, 0 < k ∧ bytes.length = k * noiseSize := by
  have hbytes := Message.wireOf_packets (m := .fragmented noiseSize command payload) h
  have hroom : ¬ noiseSize < sizeofHead * 2 := by
    intro hsmall
    rw [makeFragmentedNotify, if_pos hsmall] at h
    cases h
  have hall : ∀ p ∈ (Message.fragmented noiseSize command payload).packets, sizeofHead + p.body.length = noiseSize := by
    intro p hp
    rw [Message.packets] at hp
    split_ifs at hp with hone
    · rw [List.mem_singleton.mp hp, List.length_append, List.length_replicate]
      omega
    · rcases List.mem_cons.mp hp with rfl | hp
      · rw [List.length_take, length_finalizeNotify]
        omega
      · rw [length_body_fragmentPackets hp]
        omega
  refine ⟨(Message.fragmented noiseSize command payload).packets.length, ?_, by rw [← hbytes, length_wireOf hall]⟩
  rw [Message.packets]
  split_ifs <;> exact Nat.succ_pos _

theorem whole_makeHeader {flags : UInt32} {size : ℕ} {body : Bytes} (hsize : body.length = size)
    (hallows : e.Allows limit.toNat command size) : (Packet.mk (makeHeader command size flags false) body).Whole := by
  have hbound : size < 2 ^ 64 := (hallows.trans (min_le_left _ _)).trans_lt limit.toNat_lt
  exact ⟨rfl, (UInt64.toNat_ofNat_of_lt' hbound).trans hsize.symm⟩

theorem dispatch_notify {s : Handler} {size : ℕ}
    (hhead : s.currentHead = makeHeader command size packetRequest false) :
    dispatch e s payload = ({ s with events := s.events ++ [.notify command payload] }, true) := by
  have hflags : packetRequest &&& packetResponse = 0 := by decide
  rw [dispatch, hhead]
  simp [makeHeader, hflags]

section

variable {p : Packet} {s : Handler} {rest : Bytes} (hwhole : p.Whole) (hcurrent : s.currentHead = p.head)
  (hcache : s.cacheInBuffer = p.body ++ rest)

include hwhole hcurrent hcache

theorem handleBody_request (h : p.head.flags &&& (packetRequest ||| packetResponse) ≠ 0) :
    handleBody e maxPacketSize s = dispatch e { s with cacheInBuffer := rest, state := .head } p.body := by
  rw [handleBody, hcurrent, hwhole.size, hcache, List.take_left' rfl, List.drop_left' rfl]
  dsimp only
  rw [if_neg h]

theorem handleBody_noise (h : p.head.flags &&& (packetRequest ||| packetResponse) = 0)
    (hnoise : p.head.flags &&& (packetBegin ||| packetEnd) = packetBegin ||| packetEnd) :
    handleBody e maxPacketSize s = ({ s with cacheInBuffer := rest, state := .head }, true) := by
  rw [handleBody, hcurrent, hwhole.size, hcache, List.drop_left' rfl]
  dsimp only
  rw [if_pos h, if_pos hnoise]

theorem handleBody_fragment (h : p.head.flags &&& (packetRequest ||| packetResponse) = 0)
    (hnoise : p.head.flags &&& (packetBegin ||| packetEnd) ≠ packetBegin ||| packetEnd) :
    handleBody e maxPacketSize s =
      let collected := (if p.head.flags &&& packetBegin ≠ 0 then [] else s.fragmentBuffer) ++ p.body
      if p.head.flags &&& packetEnd = 0 then
        ({ s with cacheInBuffer := rest, state := .head, fragmentBuffer := collected }, true)
      else
        dispatchFragments e maxPacketSize
          { s with cacheInBuffer := rest, state := .head, fragmentBuffer := collected } := by
  rw [handleBody, hcurrent, hwhole.size, hcache, List.take_left' rfl, List.drop_left' rfl]
  dsimp only
  rw [if_pos h, if_neg hnoise]

end

theorem absorbs_notify {body : Bytes}
    (hallows : e.Allows limit.toNat command body.length) :
    Absorbs e limit ⟨makeHeader command body.length packetRequest false, body⟩ f v f (v ++ [.notify command body]) := by
  have hflags : packetRequest &&& (packetRequest ||| packetResponse) ≠ 0 := by decide
  have hwhole : (Packet.mk (makeHeader command body.length packetRequest false) body).Whole := whole_makeHeader rfl hallows
  refine ⟨hwhole, hallows, (if_pos hflags).symm, ?_⟩
  intro s rest hopen hcurrent hversion hcache
  refine ⟨_, (handleBody_request hwhole hcurrent hcache hflags).trans (dispatch_notify hcurrent), ?_, rfl, rfl⟩
  exact ⟨hopen.limit, hopen.closeCalled, hopen.fragments, congrArg (· ++ _) hopen.events⟩

theorem absorbs_noise {body : Bytes} (hallows : e.Allows limit.toNat 0 body.length) :
    Absorbs e limit ⟨makeHeader 0 body.length (packetBegin ||| packetEnd) false, body⟩ f v f v := by
  have hflags : (packetBegin ||| packetEnd) &&& (packetRequest ||| packetResponse) = 0 := by decide
  have hnoise : (packetBegin ||| packetEnd) &&& (packetBegin ||| packetEnd) = packetBegin ||| packetEnd := by decide
  have hwhole : (Packet.mk (makeHeader 0 body.length (packetBegin ||| packetEnd) false) body).Whole :=
    whole_makeHeader rfl hallows
  refine ⟨hwhole, hallows, ((if_neg (not_not_intro hflags)).trans (if_pos hnoise)).symm, ?_⟩
  intro s rest hopen hcurrent hversion hcache
  refine ⟨_, handleBody_noise hwhole hcurrent hcache hflags hnoise, ?_, rfl, rfl⟩
  exact ⟨hopen.limit, hopen.closeCalled, hopen.fragments, hopen.events⟩

theorem absorbs_fragment {p : Packet} {collected : Bytes} (hwhole : p.Whole)
    (hallows : e.Allows limit.toNat p.head.command p.body.length)
    (hflags : p.head.flags &&& (packetRequest ||| packetResponse) = 0) (hend : p.head.flags &&& packetEnd = 0)
    (hnoise : p.head.flags &&& (packetBegin ||| packetEnd) ≠ packetBegin ||| packetEnd)
    (hcollected : (if p.head.flags &&& packetBegin ≠ 0 then [] else f) = collected) :
    Absorbs e limit p f v (collected ++ p.body) v := by
  subst hcollected
  refine ⟨hwhole, hallows, ?_, ?_⟩
  · rw [fragmentsAfter, if_neg (not_not_intro hflags), if_neg hnoise, if_neg (not_not_intro hend), List.length_append]
    split_ifs <;> rfl
  · intro s rest hopen hcurrent hversion hcache
    refine ⟨_, (handleBody_fragment hwhole hcurrent hcache hflags hnoise).trans (if_pos hend), ?_, rfl, rfl⟩
    refine ⟨hopen.limit, hopen.closeCalled, ?_, hopen.events⟩
    dsimp only
    rw [hopen.fragments]

theorem absorbs_end {p : Packet} {padding : Bytes} (hwhole : p.Whole)
    (hallows : e.Allows limit.toNat p.head.command p.body.length)
    (hflags : p.head.flags &&& (packetRequest ||| packetResponse) = 0) (hend : p.head.flags &&& packetEnd ≠ 0)
    (hbegin : p.head.flags &&& packetBegin = 0)
    (hnoise : p.head.flags &&& (packetBegin ||| packetEnd) ≠ packetBegin ||| packetEnd)
    (hpayload : e.Allows limit.toNat command payload.length)
    (hmessage : f ++ p.body = finalizeNotify command payload ++ padding) :
    Absorbs e limit p f v [] (v ++ [.notify command payload]) := by
  refine ⟨hwhole, hallows, ?_, ?_⟩
  · rw [fragmentsAfter, if_neg (not_not_intro hflags), if_neg hnoise, if_pos hend, List.length_nil]
  · intro s rest hopen hcurrent hversion hcache
    have hsize : (makeHeader command payload.length packetRequest false).cb.toNat = payload.length :=
      (whole_makeHeader rfl hpayload).size
    have hrun : handleBody e limit.toNat s = dispatchFragments e limit.toNat
        { s with cacheInBuffer := rest, state := .head, fragmentBuffer := f ++ p.body } := by
      rw [handleBody_fragment hwhole hcurrent hcache hflags hnoise, hopen.fragments]
      dsimp only
      rw [if_neg hend, if_neg (not_not_intro hbegin)]
    have hread : bucketHead2.read .reject (f ++ p.body) =
        some (makeHeader command payload.length packetRequest false, payload ++ padding) := by
      rw [hmessage, finalizeNotify, finalize, List.append_assoc]
      exact read_write_bucketHead2 _ _
    have hsmall : ¬ payload.length >
        min limit.toNat (e.maxBytes (makeHeader command payload.length packetRequest false).command) := hpayload.not_gt
    rw [hrun, dispatchFragments, hread]
    dsimp only
    rw [hsize, if_neg (by rw [List.length_append]; omega), List.take_left' rfl, if_neg hsmall, dispatch_notify rfl]
    refine ⟨_, rfl, ?_, rfl, rfl⟩
    exact ⟨hopen.limit, hopen.closeCalled, rfl, congrArg (· ++ _) hopen.events⟩

theorem flags_end : packetEnd &&& (packetRequest ||| packetResponse) = 0 ∧ packetEnd &&& packetEnd ≠ 0 ∧
    packetEnd &&& packetBegin = 0 ∧ packetEnd &&& (packetBegin ||| packetEnd) ≠ packetBegin ||| packetEnd := by
  decide

theorem flags_middle : (0 : UInt32) &&& (packetRequest ||| packetResponse) = 0 ∧ (0 : UInt32) &&& packetEnd = 0 ∧
    (0 : UInt32) &&& (packetBegin ||| packetEnd) ≠ packetBegin ||| packetEnd := by
  decide

theorem flags_begin : packetBegin &&& (packetRequest ||| packetResponse) = 0 ∧ packetBegin &&& packetEnd = 0 ∧
    packetBegin &&& (packetBegin ||| packetEnd) ≠ packetBegin ||| packetEnd := by
  decide

theorem absorbed_fragmentPackets {message : Bytes}
    (hspace : 0 < payloadSpace) (hallows : e.Allows limit.toNat 0 payloadSpace)
    (hpayload : e.Allows limit.toNat command payload.length) (hfuel : message.length < fuel)
    (hmessage : f ++ message = finalizeNotify command payload) :
    Absorbed e limit (fragmentPackets payloadSpace fuel message) f v [] (v ++ [.notify command payload]) := by
  induction fuel generalizing message f with
  | zero => exact absurd hfuel (Nat.not_lt_zero _)
  | succ fuel ih =>
    rw [fragmentPackets]
    split_ifs with hlast
    · have hsize : (message ++ List.replicate (payloadSpace - message.length) 0).length = payloadSpace := by
        have := List.drop_eq_nil_iff.mp hlast
        rw [List.length_append, List.length_replicate]
        omega
      have hbody : e.Allows limit.toNat 0 (message ++ List.replicate (payloadSpace - message.length) 0).length := by
        rw [hsize]
        exact hallows
      have hpadded : f ++ (message ++ List.replicate (payloadSpace - message.length) 0) =
          finalizeNotify command payload ++ List.replicate (payloadSpace - message.length) 0 := by
        rw [← List.append_assoc, hmessage]
      exact .cons (absorbs_end (whole_makeHeader hsize hallows) hbody flags_end.1 flags_end.2.1 flags_end.2.2.1
        flags_end.2.2.2 hpayload hpadded) (.nil _ _)
    · have hlong : payloadSpace < message.length := by
        rw [List.drop_eq_nil_iff] at hlast
        omega
      have hsize : (message.take payloadSpace).length = payloadSpace := by
        rw [List.length_take]
        omega
      have hbody : e.Allows limit.toNat 0 (message.take payloadSpace).length := by
        rw [hsize]
        exact hallows
      have hbegin : ¬ (0 : UInt32) &&& packetBegin ≠ 0 := by decide
      apply Absorbed.cons (absorbs_fragment (whole_makeHeader hsize hallows) hbody flags_middle.1 flags_middle.2.1
        flags_middle.2.2 (if_neg hbegin))
      apply ih
      · rw [List.length_drop]
        omega
      · rw [List.append_assoc, List.take_append_drop, hmessage]

theorem Message.absorbed {m : Message} (h : m.Within e limit.toNat) (v : List Event) :
    Absorbed e limit m.packets [] v [] (v ++ m.delivered) := by
  cases m with
  | notify command payload => exact .cons (absorbs_notify h) (.nil _ _)
  | noise noiseBytes =>
    have hsize : (List.replicate (noiseBytes - sizeofHead) (0 : UInt8)).length = noiseBytes - sizeofHead :=
      List.length_replicate
    have hallows := h.2
    rw [Message.packets, Message.delivered, List.append_nil]
    rw [← hsize] at hallows
    have hnoise := absorbs_noise (f := []) (v := v) hallows
    rw [hsize] at hnoise
    exact .cons hnoise (.nil _ _)
  | fragmented noiseSize command payload =>
    obtain ⟨hroom, hsizes⟩ := h
    have hhead : sizeofHead = 33 := rfl
    rw [Message.packets, Message.delivered]
    split_ifs at hsizes ⊢ with hone
    · have hsize : (payload ++ List.replicate (noiseSize - (sizeofHead + payload.length)) 0).length =
          noiseSize - sizeofHead := by
        rw [List.length_append, List.length_replicate]
        omega
      rw [← hsize] at hsizes ⊢
      exact .cons (absorbs_notify hsizes) (.nil _ _)
    · have hlength := length_finalizeNotify command payload
      have hsize : ((finalizeNotify command payload).take (noiseSize - sizeofHead)).length = noiseSize - sizeofHead := by
        rw [List.length_take]
        omega
      have hbody : e.Allows limit.toNat 0 ((finalizeNotify command payload).take (noiseSize - sizeofHead)).length := by
        rw [hsize]
        exact hsizes.1
      have hbegin : packetBegin &&& packetBegin ≠ 0 := by decide
      apply Absorbed.cons (absorbs_fragment (whole_makeHeader hsize hsizes.1) hbody flags_begin.1 flags_begin.2.1
        flags_begin.2.2 (if_pos hbegin))
      apply absorbed_fragmentPackets _ hsizes.1 hsizes.2
      · rw [List.length_drop]
        omega
      · rw [List.nil_append, List.take_append_drop]
      · omega

def packetsOf (messages : List Message) : List Packet := messages.flatMap Message.packets

theorem absorbed_packetsOf {messages : List Message} (h : ∀ m ∈ messages, m.Within e limit.toNat) (v : List Event) :
    Absorbed e limit (packetsOf messages) [] v [] (v ++ messages.flatMap Message.delivered) := by
  induction messages generalizing v with
  | nil =>
    rw [List.flatMap_nil, List.append_nil]
    exact .nil _ _
  | cons m messages ih =>
    have hfirst := Message.absorbed (h m List.mem_cons_self) v
    have hrest := ih (fun m' hm' => h m' (List.mem_cons_of_mem m hm')) (v ++ m.delivered)
    rw [List.append_assoc] at hrest
    exact hfirst.append hrest

def Message.bytes (m : Message) : Bytes := m.bytes?.getD []

theorem Message.bytes?_eq_some {m : Message} {limit : ℕ} (h : m.Within e limit) : m.bytes? = some m.bytes := by
  have hsome : m.bytes?.isSome = true := by
    cases m with
    | notify command payload => rfl
    | noise noiseBytes =>
      rw [Message.bytes?, makeNoiseNotify, if_neg h.1.not_gt]
      rfl
    | fragmented noiseSize command payload =>
      rw [Message.bytes?, makeFragmentedNotify, if_neg h.1.not_gt]
      split_ifs <;> rfl
  obtain ⟨bytes, hbytes⟩ := Option.isSome_iff_exists.mp hsome
  rw [Message.bytes, hbytes, Option.getD_some]

theorem wireOf_packetsOf {messages : List Message} {limit : ℕ} (h : ∀ m ∈ messages, m.Within e limit) :
    wireOf (packetsOf messages) = messages.flatMap Message.bytes := by
  induction messages with
  | nil => rfl
  | cons m messages ih =>
    rw [packetsOf, List.flatMap_cons, wireOf_append, List.flatMap_cons,
      Message.wireOf_packets (Message.bytes?_eq_some (h m List.mem_cons_self))]
    exact congrArg _ (ih fun m' hm' => h m' (List.mem_cons_of_mem m hm'))

theorem receive_messages (e : Endpoint) (limit : UInt64) (messages : List Message) (reads : List Bytes)
    (hwithin : ∀ m ∈ messages, m.Within e limit.toNat) (hcut : reads.flatten = messages.flatMap Message.bytes)
    (hfits : ReadsFit limit.toNat (packetsOf messages) 0 reads) :
    (∃ s, receive e { maxPacketSize := limit } reads = (s, true) ∧ s.events = messages.flatMap Message.delivered ∧
      s.state = .head ∧ s.cacheInBuffer = [] ∧ s.fragmentBuffer = []) ∧
    ∀ noiseSize command payload, Message.fragmented noiseSize command payload ∈ messages →
      ∃ k, 0 < k ∧ (Message.fragmented noiseSize command payload).bytes.length = k * noiseSize := by
  constructor
  · have hall := absorbed_packetsOf hwithin []
    have hwire := wireOf_packetsOf hwithin
    have hwaits : Waits limit reads.flatten [] [] (packetsOf messages) { maxPacketSize := limit } :=
      .head ⟨rfl, rfl, rfl, rfl⟩ rfl (by rw [hwire, ← hcut]; rfl) (Nat.succ_pos 32)
    obtain ⟨s, hrun, hopen, hstate, hcache⟩ := receive_of_waits (.nil [] []) hall hwaits
      (by rw [List.nil_append, hwire, hcut, Nat.zero_add]) hfits
    exact ⟨s, hrun, hopen.events, hstate, hcache, hopen.fragments⟩
  · intro noiseSize command payload hmem
    exact length_makeFragmentedNotify (Message.bytes?_eq_some (hwithin _ hmem))

def anyCommand : Endpoint where
  maxBytes _ := 2 ^ 64 - 1
  maxPacketSize := 100000000
  handshakeCommand := 1001
  handshakeComplete _ := false
  sends _ := true

def initialMaxPacketSize : UInt64 := 256 * 1024

def threeMessages : List Message :=
  [.notify 2002 [1, 2, 3], .noise 40, .fragmented 66 2003 (List.replicate 40 7)]

def threeReads : List Bytes :=
  let stream := threeMessages.flatMap Message.bytes
  [stream.take 20, (stream.drop 20).take 100, stream.drop 120]

theorem flatten_threeReads : threeReads.flatten = threeMessages.flatMap Message.bytes := by
  have htail (stream : Bytes) : (stream.drop 20).take 100 ++ stream.drop 120 = stream.drop 20 := by
    rw [← List.drop_drop (i := 100) (j := 20), List.take_append_drop]
  rw [threeReads, List.flatten_cons, List.flatten_cons, List.flatten_cons, List.flatten_nil, List.append_nil, htail,
    List.take_append_drop]

set_option maxRecDepth 4000 in
theorem receive_three : ∃ s, receive anyCommand { maxPacketSize := initialMaxPacketSize } threeReads = (s, true) ∧
    s.events = [.notify 2002 [1, 2, 3], .notify 2003 (List.replicate 40 7)] := by
  obtain ⟨⟨s, hrun, hevents, -⟩, -⟩ := receive_messages anyCommand initialMaxPacketSize threeMessages threeReads
    (by decide) flatten_threeReads (by decide)
  exact ⟨s, hrun, hevents⟩

theorem handleRecv_refused {s : Handler} {bytes : Bytes}
    (h : bytes.length > s.maxPacketSize.toNat - s.cacheInBuffer.length - s.fragmentBuffer.length) :
    handleRecv e s bytes = (s, false) := by
  rw [handleRecv]
  dsimp only
  split_ifs
  · rfl
  · rfl
  · rfl
  · rfl

def largePayload : Bytes := List.replicate 200000 0

theorem length_largePayload : largePayload.length = 200000 := List.length_replicate

def twoMessages : List Message := [.notify 2002 largePayload, .notify 2002 largePayload]

theorem receive_two_at_once :
    (∀ m ∈ twoMessages, m.Within anyCommand initialMaxPacketSize.toNat) ∧
      receive anyCommand { maxPacketSize := initialMaxPacketSize } [twoMessages.flatMap Message.bytes] =
        ({ maxPacketSize := initialMaxPacketSize }, false) := by
  constructor
  · intro m hm
    have hm : m = .notify 2002 largePayload := by
      rcases List.mem_cons.mp hm with rfl | hm
      · rfl
      · exact List.mem_singleton.mp hm
    rw [hm, Message.Within, length_largePayload]
    decide
  · have hlength : (twoMessages.flatMap Message.bytes).length = 400066 := by
      have hone : (Message.notify 2002 largePayload).bytes.length = sizeofHead + 200000 := by
        rw [Message.bytes, Message.bytes?, Option.getD_some, length_finalizeNotify, length_largePayload]
      rw [twoMessages, List.flatMap_cons, List.flatMap_cons, List.flatMap_nil, List.append_nil, List.length_append, hone,
        sizeofHead]
    have hmax : initialMaxPacketSize.toNat = 262144 := by decide
    have hrefused : handleRecv anyCommand { maxPacketSize := initialMaxPacketSize } (twoMessages.flatMap Message.bytes) =
        ({ maxPacketSize := initialMaxPacketSize }, false) := by
      apply handleRecv_refused
      rw [hlength, hmax]
      omega
    rw [receive, hrefused, if_neg Bool.false_ne_true]

end Velkavo.Levin
