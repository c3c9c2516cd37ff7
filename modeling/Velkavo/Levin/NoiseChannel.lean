import Velkavo.ByteCodec.Blocks
import Velkavo.Effects.Runs
import Velkavo.Levin.Delivery

/-! The channels of a zone that sends noise: a message goes out in place of the noise, fragment by fragment. -/

namespace Velkavo.Levin.Noise

open ByteCodec

variable {ι : Type}

def sendResult (found doSend : Bool) (message : Bytes) : ℤ :=
  if found then if sizeofHead ≤ message.length ∧ doSend = true then 1 else -1 else 0

structure Channel (ι : Type) where
  active : Bytes := []
  queue : List Bytes := []
  connection : Option ι := none
  wire : List (ι × Bytes) := []
  removed : List Bytes := []

namespace Channel

variable (noise : Bytes) (c : Channel ι)

def queueCovertNotify (message : Bytes) : Channel ι :=
  if c.connection.isSome then { c with queue := c.queue ++ [message] } else c

def update (connection : Option ι) : Channel ι :=
  if connection.isSome then { c with connection := connection, active := [] }
  else { c with connection := none, active := [], queue := [], removed := c.removed ++ c.queue }

def front : Bytes := if c.active ≠ [] then c.active else c.queue.headD noise

def message : Bytes := (c.front noise).take noise.length

def afterSend : Bytes := (c.front noise).drop noise.length

def wireAfter (found doSend : Bool) (id : ι) : List (ι × Bytes) :=
  if sendResult found doSend (c.message noise) = 1 then c.wire ++ [(id, c.message noise)] else c.wire

def sendNoise (found doSend : Bool) : Channel ι :=
  match if noise = [] then none else c.connection with
  | none => c
  | some id =>
    let wire := c.wireAfter noise found doSend id
    if sendResult found doSend (c.message noise) ≠ 0 then
      if c.queue ≠ [] ∧ c.afterSend noise = [] then
        { c with active := [], queue := c.queue.tail, wire := wire, removed := c.removed ++ c.queue.take 1 }
      else { c with active := c.afterSend noise, wire := wire }
    else { c with active := [], connection := none, wire := wire }

end Channel

def maxFragments : ℕ := 20

def notifyNewTransactions : UInt32 := 2002

def covertMessage (noise payload : Bytes) : Option Bytes :=
  let message := (makeFragmentedNotify noise.length notifyNewTransactions payload).getD []
  if maxFragments * noise.length < message.length then none else some message

structure Zone (ι : Type) where
  noise : Bytes
  channels : ℕ → Channel ι := fun _ => {}

inductive Event (ι : Type)
  | notify (payload : Bytes)
  | update (connection : Option ι)
  | send (found doSend : Bool)

def Channel.step (noise : Bytes) (c : Channel ι) : Event ι → Channel ι
  | .notify payload =>
    match covertMessage noise payload with
    | none => c
    | some message => c.queueCovertNotify message
  | .update connection => c.update connection
  | .send found doSend => c.sendNoise noise found doSend

namespace Zone

def step (z : Zone ι) (e : ℕ × Event ι) : Zone ι :=
  { z with channels := Function.update z.channels e.1 ((z.channels e.1).step z.noise e.2) }

def run (z : Zone ι) (events : List (ℕ × Event ι)) : Zone ι := events.foldl step z

end Zone

inductive Attempt (ι : Type)
  | noise (id : ι)
  | whole (id : ι) (m : Bytes)
  | broken (id : ι) (m : Bytes) (sent : List Bytes)

namespace Attempt

def packets (noise : Bytes) : Attempt ι → List (ι × Bytes)
  | .noise id => [(id, noise)]
  | .whole id m => (chunks noise.length m).map (Prod.mk id)
  | .broken id _ sent => sent.map (Prod.mk id)

def completed : Attempt ι → Option Bytes
  | .whole _ m => some m
  | _ => none

def Begins (noise : Bytes) : Attempt ι → Prop
  | .broken _ m sent => sent <+: chunks noise.length m
  | _ => True

end Attempt

/-- Attempts one after the other, each to one connection; the messages that left the queue are those of completed ones. -/
def Delivered (noise : Bytes) (c : Channel ι) : Prop :=
  ∃ attempts : List (Attempt ι), (∀ a ∈ attempts, a.Begins noise) ∧ c.wire = attempts.flatMap (Attempt.packets noise) ∧
    c.removed = attempts.filterMap Attempt.completed ∧
    (c.active ≠ [] → ∃ id m sent, c.connection = some id ∧ c.queue.head? = some m ∧
      attempts.getLast? = some (.broken id m sent) ∧ chunks noise.length m = sent ++ chunks noise.length c.active)

def Event.Carried (noise : Bytes) (c : Channel ι) : Event ι → Prop
  | .notify _ => True
  | .update connection => connection = none → c.queue = []
  | .send found doSend => c.connection.isSome → found = true → sizeofHead ≤ (c.message noise).length ∧ doSend = true

instance decidableCarried (noise : Bytes) (c : Channel ι) : (e : Event ι) → Decidable (e.Carried noise c)
  | .notify _ => inferInstanceAs (Decidable True)
  | .update none => inferInstanceAs (Decidable (none = none → c.queue = []))
  | .update (some _) => isTrue fun h => nomatch h
  | .send found doSend => inferInstanceAs (Decidable (c.connection.isSome → found = true →
      sizeofHead ≤ (c.message noise).length ∧ doSend = true))

theorem Delivered.isInfix {noise : Bytes} {c : Channel ι} (h : Delivered noise c) {m : Bytes} (hm : m ∈ c.removed) :
    ∃ id, (chunks noise.length m).map (Prod.mk id) <:+: c.wire := by
  obtain ⟨attempts, -, hwire, hremoved, -⟩ := h
  rw [hremoved] at hm
  obtain ⟨a, ha, hcompleted⟩ := List.mem_filterMap.mp hm
  obtain ⟨before, after, rfl⟩ := List.append_of_mem ha
  cases a with
  | noise id => cases hcompleted
  | broken id m' sent => cases hcompleted
  | whole id m' =>
    cases hcompleted
    refine ⟨id, before.flatMap (Attempt.packets noise), after.flatMap (Attempt.packets noise), ?_⟩
    rw [hwire, List.flatMap_append, List.flatMap_cons, List.append_assoc]
    rfl

structure Sized (noise : Bytes) (c : Channel ι) : Prop where
  active : noise.length ∣ c.active.length
  queue : ∀ m ∈ c.queue, noise.length ∣ m.length
  wire : ∀ p ∈ c.wire, p.2.length = noise.length

section

variable {noise : Bytes} {c : Channel ι} {doSend found : Bool} {m : Bytes}

theorem sendResult_eq_zero_iff : sendResult found doSend m = 0 ↔ found = false := by
  unfold sendResult
  split_ifs with hfound hsent <;> simp [hfound]

theorem sendResult_eq_one_iff :
    sendResult found doSend m = 1 ↔ found = true ∧ sizeofHead ≤ m.length ∧ doSend = true := by
  unfold sendResult
  split_ifs with hfound hsent
  · exact iff_of_true rfl ⟨hfound, hsent⟩
  · exact iff_of_false (by decide) fun h => hsent h.2
  · exact iff_of_false (by decide) fun h => hfound h.1

inductive Sent (noise : Bytes) (c : Channel ι) (found doSend : Bool) : Channel ι → Prop
  | none : Sent noise c found doSend c
  | lost (hfound : found = false) : Sent noise c found doSend { c with active := [], connection := .none }
  | last {id : ι} (hnoise : noise ≠ []) (hid : c.connection = some id) (hfound : found = true) {m : Bytes} {rest : List Bytes}
      (hqueue : c.queue = m :: rest) (hafter : c.afterSend noise = []) :
      Sent noise c found doSend
        { c with active := [], queue := rest, wire := c.wireAfter noise found doSend id, removed := c.removed ++ [m] }
  | next {id : ι} (hnoise : noise ≠ []) (hid : c.connection = some id) (hfound : found = true)
      (hafter : c.queue = [] ∨ c.afterSend noise ≠ []) :
      Sent noise c found doSend { c with active := c.afterSend noise, wire := c.wireAfter noise found doSend id }

theorem sent_sendNoise (found doSend : Bool) : Sent noise c found doSend (c.sendNoise noise found doSend) := by
  unfold Channel.sendNoise
  by_cases hnoise : noise = []
  · rw [if_pos hnoise]
    exact .none
  rw [if_neg hnoise]
  cases hid : c.connection with
  | none => exact .none
  | some id =>
    dsimp only
    cases found with
    | false =>
      have hwire : c.wireAfter noise false doSend id = c.wire := if_neg (by simp [sendResult_eq_one_iff])
      rw [if_neg (not_not.mpr (sendResult_eq_zero_iff.mpr rfl)), hwire]
      exact .lost rfl
    | true =>
      rw [if_pos (mt sendResult_eq_zero_iff.mp (by decide))]
      cases hqueue : c.queue with
      | nil =>
        rw [if_neg (fun h => h.1 rfl)]
        have hnext := @Sent.next _ noise c true doSend id hnoise hid rfl (.inl hqueue)
        rwa [hqueue, hid] at hnext
      | cons m rest =>
        by_cases hafter : c.afterSend noise = []
        · rw [if_pos ⟨List.cons_ne_nil m rest, hafter⟩]
          have hlast := @Sent.last _ noise c true doSend id hnoise hid rfl m rest hqueue hafter
          rwa [hid] at hlast
        · rw [if_neg (fun h => hafter h.2)]
          have hnext := @Sent.next _ noise c true doSend id hnoise hid rfl (.inr hafter)
          rwa [hqueue, hid] at hnext

theorem Sized.front (h : Sized noise c) : noise.length ∣ (c.front noise).length := by
  unfold Channel.front
  split_ifs with hactive
  · exact h.active
  · cases hqueue : c.queue with
    | nil => exact dvd_rfl
    | cons m rest => exact h.queue m (by rw [hqueue]; exact List.mem_cons_self)

theorem Sized.length_message (h : Sized noise c) (hmessage : sizeofHead ≤ (c.message noise).length) :
    (c.message noise).length = noise.length := by
  refine List.length_take_of_le (Nat.le_of_dvd ?_ h.front)
  rw [Channel.message, List.length_take, sizeofHead] at hmessage
  omega

theorem Sized.wireAfter (h : Sized noise c) (found doSend : Bool) (id : ι) :
    ∀ p ∈ c.wireAfter noise found doSend id, p.2.length = noise.length := by
  unfold Channel.wireAfter
  split_ifs with hsent
  · intro p hp
    rcases List.mem_append.mp hp with hp | hp
    · exact h.wire p hp
    · rw [List.mem_singleton.mp hp]
      exact h.length_message (sendResult_eq_one_iff.mp hsent).2.1
  · exact h.wire

theorem dvd_length_covertMessage {payload : Bytes} (h : covertMessage noise payload = some m) : noise.length ∣ m.length := by
  unfold covertMessage at h
  simp only at h
  split_ifs at h
  cases h
  cases hmessage : makeFragmentedNotify noise.length notifyNewTransactions payload with
  | none => exact dvd_zero _
  | some bytes =>
    obtain ⟨k, -, hlength⟩ := length_makeFragmentedNotify hmessage
    exact ⟨k, by rw [Option.getD_some, hlength, Nat.mul_comm]⟩

theorem step_notify (payload : Bytes) : c.step noise (.notify payload) = c ∨
    ∃ m, noise.length ∣ m.length ∧ c.step noise (.notify payload) = { c with queue := c.queue ++ [m] } := by
  simp only [Channel.step, Channel.queueCovertNotify]
  cases hmessage : covertMessage noise payload with
  | none => exact .inl rfl
  | some m =>
    by_cases hconnection : c.connection.isSome
    · exact .inr ⟨m, dvd_length_covertMessage hmessage, if_pos hconnection⟩
    · exact .inl (if_neg hconnection)

theorem Sized.of_sent (h : Sized noise c) {c' : Channel ι} (hs : Sent noise c found doSend c') :
    Sized noise c' := by
  cases hs with
  | none => exact h
  | lost => exact ⟨dvd_zero _, h.queue, h.wire⟩
  | @last id _ _ _ m rest hqueue _ =>
    refine ⟨dvd_zero _, fun m' hm' => h.queue m' ?_, h.wireAfter found doSend id⟩
    rw [hqueue]
    exact List.mem_cons_of_mem m hm'
  | @next id =>
    refine ⟨?_, h.queue, h.wireAfter found doSend id⟩
    rw [Channel.afterSend, List.length_drop]
    exact Nat.dvd_sub h.front dvd_rfl

theorem Sized.step (h : Sized noise c) (e : Event ι) : Sized noise (c.step noise e) := by
  cases e with
  | notify payload =>
    rcases step_notify (c := c) payload with heq | ⟨m, hm, heq⟩
    · rwa [heq]
    · rw [heq]
      refine ⟨h.active, fun m' hm' => ?_, h.wire⟩
      rcases List.mem_append.mp hm' with hm' | hm'
      · exact h.queue m' hm'
      · rwa [List.mem_singleton.mp hm']
  | update connection =>
    simp only [Channel.step, Channel.update]
    split_ifs
    · exact ⟨dvd_zero _, h.queue, h.wire⟩
    · exact ⟨dvd_zero _, fun m hm => absurd hm List.not_mem_nil, h.wire⟩
  | send found doSend => exact h.of_sent (sent_sendNoise found doSend)

theorem Delivered.in_front (h : Delivered noise c) {id : ι} (hid : c.connection = some id) {rest : List Bytes}
    (hqueue : c.queue = m :: rest) : ∃ (attempts : List (Attempt ι)) (sent : List Bytes),
      (∀ a ∈ attempts, a.Begins noise) ∧ c.wire = attempts.flatMap (Attempt.packets noise) ++ sent.map (Prod.mk id) ∧
      c.removed = attempts.filterMap Attempt.completed ∧
      chunks noise.length m = sent ++ chunks noise.length (c.front noise) := by
  obtain ⟨attempts, hbegins, hwire, hremoved, hactive⟩ := h
  unfold Channel.front
  by_cases hidle : c.active = []
  · refine ⟨attempts, [], hbegins, ?_, hremoved, ?_⟩
    · rw [hwire, List.map_nil, List.append_nil]
    · rw [if_neg (not_not.mpr hidle), hqueue]
      rfl
  · obtain ⟨id', m', sent, hid', hm', hlast, hchunks⟩ := hactive hidle
    rw [hid, Option.some_inj] at hid'
    rw [hqueue, List.head?_cons, Option.some_inj] at hm'
    subst hid' hm'
    obtain ⟨done, rfl⟩ := List.getLast?_eq_some_iff.mp hlast
    refine ⟨done, sent, fun a ha => hbegins a (List.mem_append_left _ ha), ?_, ?_, by rwa [if_pos hidle]⟩
    · rw [hwire, List.flatMap_append, List.flatMap_singleton]
      rfl
    · rw [hremoved, List.filterMap_append]
      exact List.append_nil _

theorem Delivered.of_sent (h : Delivered noise c) (hsized : Sized noise c) {c' : Channel ι}
    (hcarried : Event.Carried noise c (.send found doSend)) (hs : Sent noise c found doSend c') : Delivered noise c' := by
  -- a connection that is found takes a whole fragment
  have hpacket : ∀ {id}, noise ≠ [] → c.connection = some id → found = true →
      c.wireAfter noise found doSend id = c.wire ++ [(id, c.message noise)] ∧
        chunks noise.length (c.front noise) = c.message noise :: chunks noise.length (c.afterSend noise) := by
    intro id hnoise hid hfound
    obtain ⟨hlength, hsend⟩ := hcarried (by rw [hid]; rfl) hfound
    have htake := hsized.length_message hlength
    refine ⟨if_pos (sendResult_eq_one_iff.mpr ⟨hfound, hlength, hsend⟩), ?_⟩
    rw [← chunks_append (List.length_pos_iff.mpr hnoise) htake, Channel.message, Channel.afterSend, List.take_append_drop]
  cases hs with
  | none => exact h
  | lost =>
    obtain ⟨attempts, hbegins, hwire, hremoved, -⟩ := h
    exact ⟨attempts, hbegins, hwire, hremoved, fun hactive => absurd rfl hactive⟩
  | @last id hnoise hid hfound m rest hqueue hafter =>
    obtain ⟨attempts, sent, hbegins, hwire, hremoved, hchunks⟩ := h.in_front hid hqueue
    obtain ⟨hwire', hfront⟩ := hpacket hnoise hid hfound
    have hnone : chunks noise.length ([] : Bytes) = [] := chunks_of_lt (List.length_pos_iff.mpr hnoise)
    rw [hafter, hnone] at hfront
    refine ⟨attempts ++ [.whole id m], List.forall_mem_append.mpr ⟨hbegins, by simp [Attempt.Begins]⟩, ?_, ?_,
      fun hactive => absurd rfl hactive⟩
    · rw [List.flatMap_append, List.flatMap_singleton, Attempt.packets, hchunks, hfront, List.map_append, ← List.append_assoc,
        ← hwire]
      exact hwire'
    · rw [List.filterMap_append, ← hremoved]
      rfl
  | @next id hnoise hid hfound hafter =>
    obtain ⟨hwire', hfront⟩ := hpacket hnoise hid hfound
    cases hqueue : c.queue with
    | nil =>
      obtain ⟨attempts, hbegins, hwire, hremoved, hactive⟩ := h
      have hidle : c.active = [] := by
        by_contra hne
        obtain ⟨-, m, -, -, hm, -⟩ := hactive hne
        rw [hqueue] at hm
        cases hm
      have hnoise' : c.front noise = noise := by rw [Channel.front, if_neg (not_not.mpr hidle), hqueue, List.headD_nil]
      refine ⟨attempts ++ [.noise id], List.forall_mem_append.mpr ⟨hbegins, by simp [Attempt.Begins]⟩, ?_, ?_,
        fun hactive' => absurd ?_ hactive'⟩
      · rw [List.flatMap_append, List.flatMap_singleton, Attempt.packets, ← hwire]
        rwa [Channel.message, hnoise', List.take_length] at hwire'
      · rw [List.filterMap_append, hremoved]
        exact (List.append_nil _).symm
      · rw [Channel.afterSend, hnoise', List.drop_length]
    | cons m rest =>
      obtain ⟨attempts, sent, hbegins, hwire, hremoved, hchunks⟩ := h.in_front hid hqueue
      rw [hfront, List.append_cons] at hchunks
      refine ⟨attempts ++ [.broken id m (sent ++ [c.message noise])], List.forall_mem_append.mpr ⟨hbegins, ?_⟩, ?_, ?_,
        fun _ => ⟨id, m, _, hid, rfl, List.getLast?_concat, hchunks⟩⟩
      · rw [List.forall_mem_singleton]
        exact ⟨_, hchunks.symm⟩
      · rw [List.flatMap_append, List.flatMap_singleton, Attempt.packets, List.map_append, ← List.append_assoc, ← hwire]
        exact hwire'
      · rw [List.filterMap_append, hremoved]
        exact (List.append_nil _).symm

theorem Delivered.step (h : Delivered noise c) (hsized : Sized noise c) {e : Event ι} (he : e.Carried noise c) :
    Delivered noise (c.step noise e) := by
  cases e with
  | send found doSend => exact h.of_sent hsized he (sent_sendNoise found doSend)
  | notify payload =>
    rcases step_notify (c := c) payload with heq | ⟨m, -, heq⟩
    · rwa [heq]
    · obtain ⟨attempts, hbegins, hwire, hremoved, hactive⟩ := h
      rw [heq]
      refine ⟨attempts, hbegins, hwire, hremoved, fun hne => ?_⟩
      obtain ⟨id, m', sent, hid, hm', hrest⟩ := hactive hne
      exact ⟨id, m', sent, hid, by rw [List.head?_append, hm']; rfl, hrest⟩
  | update connection =>
    obtain ⟨attempts, hbegins, hwire, hremoved, -⟩ := h
    cases connection with
    | some id => exact ⟨attempts, hbegins, hwire, hremoved, fun hne => absurd rfl hne⟩
    | none =>
      refine ⟨attempts, hbegins, hwire, ?_, fun hne => absurd rfl hne⟩
      change c.removed ++ c.queue = _
      rw [he rfl, List.append_nil, hremoved]

end

section

variable {noise : Bytes} {z : Zone ι} {i : ℕ}

theorem channels_step (e : ℕ × Event ι) :
    (z.step e).channels i = if e.1 = i then (z.channels i).step z.noise e.2 else z.channels i := by
  unfold Zone.step
  dsimp only
  split_ifs with hi
  · rw [← hi, Function.update_self]
  · rw [Function.update_of_ne (Ne.symm hi)]

theorem sized_step (e : ℕ × Event ι) (h : z.noise = noise ∧ Sized noise (z.channels i)) :
    (z.step e).noise = noise ∧ Sized noise ((z.step e).channels i) := by
  refine ⟨h.1, ?_⟩
  rw [channels_step, h.1]
  split_ifs
  · exact h.2.step e.2
  · exact h.2

theorem delivered_step (e : ℕ × Event ι) (he : e.1 = i → e.2.Carried noise (z.channels i))
    (h : (z.noise = noise ∧ Sized noise (z.channels i)) ∧ Delivered noise (z.channels i)) :
    ((z.step e).noise = noise ∧ Sized noise ((z.step e).channels i)) ∧ Delivered noise ((z.step e).channels i) := by
  refine ⟨sized_step e h.1, ?_⟩
  rw [channels_step, h.1.1]
  split_ifs with hi
  · exact h.2.step h.1.2 (he hi)
  · exact h.2

theorem sized_init : Sized noise ({} : Channel ι) :=
  ⟨dvd_zero _, fun _ hm => absurd hm List.not_mem_nil, fun _ hp => absurd hp List.not_mem_nil⟩

theorem delivered_init : Delivered noise ({} : Channel ι) :=
  ⟨[], fun _ ha => absurd ha List.not_mem_nil, rfl, rfl, fun hne => absurd rfl hne⟩

theorem noise_packets (noise : Bytes) (events : List (ℕ × Event ι)) (i : ℕ) :
    (∀ p ∈ ((Zone.run { noise := noise } events).channels i).wire, p.2.length = noise.length) ∧
    ((∀ done e rest, events = done ++ e :: rest → e.1 = i → e.2.Carried noise ((Zone.run { noise := noise } done).channels i)) →
      Delivered noise ((Zone.run { noise := noise } events).channels i)) := by
  constructor
  · have hsized := @Effects.foldl_invariant _ _ Zone.step events
      (fun z => z.noise = noise ∧ Sized noise (z.channels i)) (fun _ _ => True) { noise := noise } ⟨rfl, sized_init⟩
      (fun z e _ h _ => sized_step e h) (fun _ _ _ _ => trivial)
    exact hsized.2.wire
  · intro hcarried
    have hdelivered := @Effects.foldl_invariant _ _ Zone.step events
      (fun z => (z.noise = noise ∧ Sized noise (z.channels i)) ∧ Delivered noise (z.channels i))
      (fun z e => e.1 = i → e.2.Carried noise (z.channels i)) { noise := noise } ⟨⟨rfl, sized_init⟩, delivered_init⟩
      (fun z e _ h he => delivered_step e he h) hcarried
    exact hdelivered.2

def coveredRun (last : Bool) : List (ℕ × Event ℕ) :=
  [(0, .update (some 7)), (0, .notify (List.replicate 40 1)), (0, .send true true), (0, .send true true), (0, .send true last)]

def coveredZone (last : Bool) : Zone ℕ := Zone.run { noise := List.replicate 66 0 } (coveredRun last)

theorem noise_packets_covered : ((coveredZone true).channels 0).removed.length = 1 ∧
    ((coveredZone true).channels 0).wire.length = 3 ∧ Delivered (List.replicate 66 0) ((coveredZone true).channels 0) := by
  refine ⟨by decide +kernel, by decide +kernel, (noise_packets (List.replicate 66 0) (coveredRun true) 0).2 ?_⟩
  exact @Effects.forall_splits _ (coveredRun true) (fun done e => e.1 = 0 →
    e.2.Carried (List.replicate 66 0) ((Zone.run { noise := List.replicate 66 0 } done).channels 0)) (by decide +kernel)

theorem noise_message_lost : ((coveredZone false).channels 0).removed.length = 1 ∧
    ((coveredZone false).channels 0).wire.length = 2 ∧ ¬Delivered (List.replicate 66 0) ((coveredZone false).channels 0) := by
  refine ⟨by decide +kernel, by decide +kernel, fun h => ?_⟩
  have hremoved : ∃ m ∈ ((coveredZone false).channels 0).removed, (chunks 66 m).length = 3 := by decide +kernel
  obtain ⟨m, hm, hlength⟩ := hremoved
  obtain ⟨id, hinfix⟩ := h.isInfix hm
  have hle := hinfix.length_le
  rw [List.length_map, List.length_replicate, hlength] at hle
  have hwire : ((coveredZone false).channels 0).wire.length = 2 := by decide +kernel
  omega

end

end Velkavo.Levin.Noise
