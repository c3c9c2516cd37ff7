import Velkavo.Effects.Runs
import Velkavo.P2p.Peerlist

/-! What holds of the white and the gray list after any calls. -/

namespace Velkavo.P2p

namespace PeerlistManager

inductive Call
  | mergePeerlist (outerBs : List PeerlistEntry) (f : Option (PeerlistEntry → Bool))
  | appendWithPeerWhite (ple : PeerlistEntry) (trustLastSeen : Bool)
  | appendWithPeerGray (ple : PeerlistEntry)
  | appendWithPeerAnchor (ple : AnchorPeerlistEntry)
  | setPeerJustSeen (now : ℤ) (peer : UInt64) (addr : NetworkAddress) (pruningSeed : UInt32) (rpcPort : UInt16)
      (rpcCreditsPerHash : UInt32)
  | removeFromPeerWhite (pe : PeerlistEntry)
  | removeFromPeerGray (pe : PeerlistEntry)
  | removeFromPeerAnchor (addr : NetworkAddress)
  | getAndEmptyAnchorPeerlist
  | filter (white : Bool) (f : PeerlistEntry → Bool)
  | evictHostFromPeerlist (useWhite : Bool) (pr : PeerlistEntry)

def step (m : PeerlistManager) : Call → PeerlistManager
  | .mergePeerlist outerBs f => m.mergePeerlist outerBs f
  | .appendWithPeerWhite ple trustLastSeen => m.appendWithPeerWhite ple trustLastSeen
  | .appendWithPeerGray ple => m.appendWithPeerGray ple
  | .appendWithPeerAnchor ple => m.appendWithPeerAnchor ple
  | .setPeerJustSeen now peer addr pruningSeed rpcPort rpcCreditsPerHash =>
    m.setPeerJustSeen now peer addr pruningSeed rpcPort rpcCreditsPerHash
  | .removeFromPeerWhite pe => m.removeFromPeerWhite pe
  | .removeFromPeerGray pe => m.removeFromPeerGray pe
  | .removeFromPeerAnchor addr => m.removeFromPeerAnchor addr
  | .getAndEmptyAnchorPeerlist => m.getAndEmptyAnchorPeerlist.1
  | .filter white f => m.filter white f
  | .evictHostFromPeerlist useWhite pr => m.evictHostFromPeerlist useWhite pr

def Call.Seen : Call → Prop
  | .appendWithPeerWhite _ trustLastSeen => trustLastSeen = true
  | .setPeerJustSeen .. => True
  | _ => False

structure Sound (m : PeerlistManager) : Prop where
  apart : ∀ e ∈ m.peersWhite, ∀ g ∈ m.peersGray, e.adr ≠ g.adr
  white_size : m.peersWhite.size ≤ localWhitePeerlistLimit
  gray_size : m.peersGray.size ≤ localGrayPeerlistLimit
  one_host : ∀ e ∈ m.peersWhite, ∀ e' ∈ m.peersWhite, e.adr.isSameHost e'.adr = true → e = e'
  white_allowed : ∀ e ∈ m.peersWhite, m.isHostAllowed e.adr = true
  gray_allowed : ∀ g ∈ m.peersGray, m.isHostAllowed g.adr = true

def Keeps (m m' : PeerlistManager) : Prop :=
  ∀ e ∈ m.peersWhite, ∀ e' ∈ m'.peersWhite, e.adr = e'.adr → e.lastSeen = e'.lastSeen

structure Shrinks (m m' : PeerlistManager) : Prop where
  allow : m'.allowLocalIp = m.allowLocalIp
  white : ∀ e ∈ m'.peersWhite, e ∈ m.peersWhite
  gray : ∀ g ∈ m'.peersGray, g ∈ m.peersGray
  white_size : m'.peersWhite.size ≤ m.peersWhite.size
  gray_size : m'.peersGray.size ≤ m.peersGray.size

variable {m m' : PeerlistManager} {ple : PeerlistEntry}

theorem isHostAllowed_congr (h : m'.allowLocalIp = m.allowLocalIp) (address : NetworkAddress) :
    m'.isHostAllowed address = m.isHostAllowed address := by
  rw [isHostAllowed, isHostAllowed, h]

theorem Shrinks.sound (hm : Sound m) (h : Shrinks m m') : Sound m' where
  apart := fun e he g hg => hm.apart e (h.white e he) g (h.gray g hg)
  white_size := h.white_size.trans hm.white_size
  gray_size := h.gray_size.trans hm.gray_size
  one_host := fun e he e' he' => hm.one_host e (h.white e he) e' (h.white e' he')
  white_allowed := fun e he => (isHostAllowed_congr h.allow e.adr).trans (hm.white_allowed e (h.white e he))
  gray_allowed := fun g hg => (isHostAllowed_congr h.allow g.adr).trans (hm.gray_allowed g (h.gray g hg))

theorem Shrinks.keeps (h : Shrinks m m') : Keeps m m' := by
  intro e he e' he' hadr
  rw [TimedIndex.eq_of_key he (h.white e' he') hadr]

theorem shrinks_filter (m : PeerlistManager) (white : Bool) (f : PeerlistEntry → Bool) : Shrinks m (m.filter white f) := by
  rw [filter]
  split_ifs
  · exact ⟨rfl, fun e he => (TimedIndex.mem_eraseIf.mp he).1, fun g hg => hg, TimedIndex.size_eraseIf_le _ _, Nat.le_refl _⟩
  · exact ⟨rfl, fun e he => he, fun g hg => (TimedIndex.mem_eraseIf.mp hg).1, Nat.le_refl _, TimedIndex.size_eraseIf_le _ _⟩

section

variable {trustLastSeen : Bool}

theorem appendWithPeerWhite_cases (m : PeerlistManager) (ple : PeerlistEntry) (trustLastSeen : Bool) :
    m.appendWithPeerWhite ple trustLastSeen = m ∨
    m.isHostAllowed ple.adr = true ∧ m.peersWhite.find ple.adr = none ∧ m.appendWithPeerWhite ple trustLastSeen =
      { m with
        peersWhite :=
          ((m.peersWhite.eraseIf fun pe => pe.adr.isSameHost ple.adr).insert ple).trim localWhitePeerlistLimit
        peersGray := m.peersGray.erase ple.adr } ∨
    m.isHostAllowed ple.adr = true ∧ ∃ known new, m.peersWhite.find ple.adr = some known ∧ new.adr = ple.adr ∧
      (trustLastSeen = false → new.lastSeen = known.lastSeen) ∧ m.appendWithPeerWhite ple trustLastSeen =
        { m with
          peersWhite := m.peersWhite.replace new
          peersGray := m.peersGray.erase ple.adr } := by
  rw [appendWithPeerWhite]
  cases hallowed : m.isHostAllowed ple.adr with
  | false => exact .inl rfl
  | true =>
    refine .inr ?_
    rw [if_neg (by decide)]
    cases hfind : m.peersWhite.find ple.adr with
    | none => exact .inl ⟨rfl, rfl, rfl⟩
    | some known =>
      refine .inr ⟨rfl, known, _, rfl, ?_, ?_, rfl⟩
      · cases trustLastSeen <;> rfl
      · rintro rfl
        rfl

theorem find_evicted (hnone : m.peersWhite.find ple.adr = none) :
    (m.peersWhite.eraseIf fun pe => pe.adr.isSameHost ple.adr).find ple.adr = none :=
  TimedIndex.find_eq_none.mpr fun e he => TimedIndex.find_eq_none.mp hnone e (TimedIndex.mem_eraseIf.mp he).1

theorem mem_whiteInserted {e : PeerlistEntry} (hnone : m.peersWhite.find ple.adr = none)
    (h : e ∈ ((m.peersWhite.eraseIf fun pe => pe.adr.isSameHost ple.adr).insert ple).trim localWhitePeerlistLimit) :
    e = ple ∨ e ∈ m.peersWhite ∧ e.adr.isSameHost ple.adr = false := by
  rcases (TimedIndex.mem_insert (find_evicted hnone)).mp (TimedIndex.mem_of_mem_trim h) with rfl | he
  · exact .inl rfl
  · exact .inr (TimedIndex.mem_eraseIf.mp he)

theorem Sound.whiteInserted (hm : Sound m) (hallowed : m.isHostAllowed ple.adr = true)
    (hnone : m.peersWhite.find ple.adr = none) :
    Sound { m with
      peersWhite :=
        ((m.peersWhite.eraseIf fun pe => pe.adr.isSameHost ple.adr).insert ple).trim localWhitePeerlistLimit
      peersGray := m.peersGray.erase ple.adr } where
  apart := by
    intro e he g hg
    obtain ⟨hg, hne⟩ := TimedIndex.mem_erase.mp hg
    rcases mem_whiteInserted hnone he with rfl | ⟨he, -⟩
    · exact hne.symm
    · exact hm.apart e he g hg
  white_size := TimedIndex.size_trim_le _ _
  gray_size := (TimedIndex.size_eraseIf_le _ _).trans hm.gray_size
  one_host := by
    intro e he e' he' hsame
    rcases mem_whiteInserted hnone he with rfl | ⟨he, hother⟩
    · rcases mem_whiteInserted hnone he' with rfl | ⟨-, hother⟩
      · rfl
      · rw [NetworkAddress.isSameHost_comm, hother] at hsame
        cases hsame
    · rcases mem_whiteInserted hnone he' with rfl | ⟨he', -⟩
      · rw [hother] at hsame
        cases hsame
      · exact hm.one_host e he e' he' hsame
  white_allowed := by
    intro e he
    rcases mem_whiteInserted hnone he with rfl | ⟨he, -⟩
    · exact hallowed
    · exact hm.white_allowed e he
  gray_allowed := fun g hg => hm.gray_allowed g (TimedIndex.mem_erase.mp hg).1

theorem Sound.whiteReplaced (hm : Sound m) (hallowed : m.isHostAllowed ple.adr = true) {known new : PeerlistEntry}
    (hknown : m.peersWhite.find ple.adr = some known) (hnew : new.adr = ple.adr) :
    Sound { m with
      peersWhite := m.peersWhite.replace new
      peersGray := m.peersGray.erase ple.adr } := by
  obtain ⟨hmem, hadr⟩ := TimedIndex.find_eq_some hknown
  have hthere : ∃ z ∈ m.peersWhite, z.adr = new.adr := ⟨known, hmem, hadr.trans hnew.symm⟩
  have hreplaced {e : PeerlistEntry} (he : e ∈ m.peersWhite.replace new) : e = new ∨ e ∈ m.peersWhite ∧ e.adr ≠ ple.adr := by
    rw [TimedIndex.mem_replace hthere, hnew] at he
    exact he
  have hhost {e : PeerlistEntry} (he : e ∈ m.peersWhite) (hne : e.adr ≠ ple.adr) : new.adr.isSameHost e.adr ≠ true := by
    intro hsame
    rw [hnew, ← hadr] at hsame
    rw [← hm.one_host known hmem e he hsame] at hne
    exact hne hadr
  refine ⟨?_, (TimedIndex.size_replace_le hthere).trans hm.white_size,
    (TimedIndex.size_eraseIf_le _ _).trans hm.gray_size, ?_, ?_, fun g hg => hm.gray_allowed g (TimedIndex.mem_erase.mp hg).1⟩
  · intro e he g hg
    obtain ⟨hg, hne⟩ := TimedIndex.mem_erase.mp hg
    rcases hreplaced he with rfl | ⟨he, -⟩
    · rw [hnew]
      exact hne.symm
    · exact hm.apart e he g hg
  · intro e he e' he' hsame
    rcases hreplaced he with rfl | ⟨hold, hne⟩
    · rcases hreplaced he' with rfl | ⟨hold', hne'⟩
      · rfl
      · exact absurd hsame (hhost hold' hne')
    · rcases hreplaced he' with rfl | ⟨hold', -⟩
      · rw [NetworkAddress.isSameHost_comm] at hsame
        exact absurd hsame (hhost hold hne)
      · exact hm.one_host e hold e' hold' hsame
  · intro e he
    rcases hreplaced he with rfl | ⟨he, -⟩
    · rw [hnew]
      exact hallowed
    · exact hm.white_allowed e he

theorem Sound.appendWithPeerWhite (hm : Sound m) : Sound (m.appendWithPeerWhite ple trustLastSeen) := by
  rcases appendWithPeerWhite_cases m ple trustLastSeen with
    hsame | ⟨hallowed, hnone, hresult⟩ | ⟨hallowed, known, new, hknown, hnew, -, hresult⟩
  · rw [hsame]
    exact hm
  · rw [hresult]
    exact hm.whiteInserted hallowed hnone
  · rw [hresult]
    exact hm.whiteReplaced hallowed hknown hnew

theorem keeps_appendWithPeerWhite (m : PeerlistManager) (ple : PeerlistEntry) : Keeps m (m.appendWithPeerWhite ple false) := by
  intro e he e' he' hadr
  rcases appendWithPeerWhite_cases m ple false with
    hsame | ⟨hallowed, hnone, hresult⟩ | ⟨hallowed, known, new, hknown, hnew, hseen, hresult⟩
  · rw [hsame] at he'
    rw [TimedIndex.eq_of_key he he' hadr]
  · rw [hresult] at he'
    rcases mem_whiteInserted hnone he' with rfl | ⟨he', -⟩
    · exact absurd hadr (TimedIndex.find_eq_none.mp hnone e he)
    · rw [TimedIndex.eq_of_key he he' hadr]
  · obtain ⟨hmem, hkadr⟩ := TimedIndex.find_eq_some hknown
    rw [hresult] at he'
    rcases (TimedIndex.mem_replace ⟨known, hmem, hkadr.trans hnew.symm⟩).mp he' with rfl | ⟨he', -⟩
    · rw [TimedIndex.eq_of_key he hmem (hadr.trans (hnew.trans hkadr.symm)), hseen rfl]
    · rw [TimedIndex.eq_of_key he he' hadr]

end

section

theorem appendWithPeerGray_cases (m : PeerlistManager) (ple : PeerlistEntry) :
    m.appendWithPeerGray ple = m ∨
    m.isHostAllowed ple.adr = true ∧ m.peersWhite.find ple.adr = none ∧
      (m.peersGray.find ple.adr = none ∧
          m.appendWithPeerGray ple = { m with peersGray := (m.peersGray.insert ple).trim localGrayPeerlistLimit } ∨
        ∃ known new, m.peersGray.find ple.adr = some known ∧ new.adr = ple.adr ∧
          m.appendWithPeerGray ple = { m with peersGray := m.peersGray.replace new }) := by
  rw [appendWithPeerGray]
  cases hallowed : m.isHostAllowed ple.adr with
  | false => exact .inl rfl
  | true =>
    rw [if_neg (by decide)]
    cases hwhite : m.peersWhite.find ple.adr with
    | some known => exact .inl rfl
    | none =>
      refine .inr ⟨rfl, rfl, ?_⟩
      cases hgray : m.peersGray.find ple.adr with
      | none => exact .inl ⟨rfl, rfl⟩
      | some known => exact .inr ⟨known, { keepKnown known ple with lastSeen := known.lastSeen }, rfl, rfl, rfl⟩

theorem peersWhite_appendWithPeerGray (m : PeerlistManager) (ple : PeerlistEntry) :
    (m.appendWithPeerGray ple).peersWhite = m.peersWhite := by
  rcases appendWithPeerGray_cases m ple with hsame | ⟨-, -, ⟨-, hresult⟩ | ⟨known, new, -, -, hresult⟩⟩
  · rw [hsame]
  · rw [hresult]
  · rw [hresult]

theorem Sound.withGray (hm : Sound m) (hallowed : m.isHostAllowed ple.adr = true) (hnone : m.peersWhite.find ple.adr = none)
    {gray : PeersIndexed} (hgray : ∀ g ∈ gray, g ∈ m.peersGray ∨ g.adr = ple.adr) (hsize : gray.size ≤ localGrayPeerlistLimit) :
    Sound { m with peersGray := gray } where
  apart := by
    intro e he g hg
    rcases hgray g hg with hg | hadr
    · exact hm.apart e he g hg
    · rw [hadr]
      exact TimedIndex.find_eq_none.mp hnone e he
  white_size := hm.white_size
  gray_size := hsize
  one_host := hm.one_host
  white_allowed := hm.white_allowed
  gray_allowed := by
    intro g hg
    rcases hgray g hg with hg | hadr
    · exact hm.gray_allowed g hg
    · rw [hadr]
      exact hallowed

theorem Sound.appendWithPeerGray (hm : Sound m) : Sound (m.appendWithPeerGray ple) := by
  rcases appendWithPeerGray_cases m ple with
    hsame | ⟨hallowed, hwhite, ⟨hgray, hresult⟩ | ⟨known, new, hknown, hnew, hresult⟩⟩
  · rw [hsame]
    exact hm
  · rw [hresult]
    refine hm.withGray hallowed hwhite (fun g hg => ?_) (TimedIndex.size_trim_le _ _)
    rcases (TimedIndex.mem_insert hgray).mp (TimedIndex.mem_of_mem_trim hg) with rfl | hg
    · exact .inr rfl
    · exact .inl hg
  · obtain ⟨hmem, hadr⟩ := TimedIndex.find_eq_some hknown
    have hthere : ∃ z ∈ m.peersGray, z.adr = new.adr := ⟨known, hmem, hadr.trans hnew.symm⟩
    rw [hresult]
    refine hm.withGray hallowed hwhite (fun g hg => ?_) ((TimedIndex.size_replace_le hthere).trans hm.gray_size)
    rcases (TimedIndex.mem_replace hthere).mp hg with rfl | ⟨hg, -⟩
    · exact .inr hnew
    · exact .inl hg

theorem shrinks_trimGrayPeerlist (m : PeerlistManager) : Shrinks m m.trimGrayPeerlist where
  allow := rfl
  white := fun _ he => he
  gray := fun _ hg => TimedIndex.mem_of_mem_trim hg
  white_size := Nat.le_refl _
  gray_size := (TimedIndex.trimLoop_sublist _ _).length_le

theorem mergePeerlist_induction {P : PeerlistManager → Prop} (hm : P m) (happend : ∀ m ple, P m → P (m.appendWithPeerGray ple))
    (htrim : ∀ m, P m → P m.trimGrayPeerlist) (outerBs : List PeerlistEntry) (f : Option (PeerlistEntry → Bool)) :
    P (m.mergePeerlist outerBs f) := by
  rw [PeerlistManager.mergePeerlist]
  apply htrim
  induction outerBs generalizing m with
  | nil => exact hm
  | cons be outerBs ih =>
    rw [List.foldl_cons]
    apply ih
    split_ifs
    · exact happend m be hm
    · exact hm

theorem Sound.mergePeerlist (hm : Sound m) (outerBs : List PeerlistEntry) (f : Option (PeerlistEntry → Bool)) :
    Sound (m.mergePeerlist outerBs f) :=
  mergePeerlist_induction hm (fun _ _ h => h.appendWithPeerGray) (fun m h => (shrinks_trimGrayPeerlist m).sound h) outerBs f

theorem peersWhite_mergePeerlist (m : PeerlistManager) (outerBs : List PeerlistEntry) (f : Option (PeerlistEntry → Bool)) :
    (m.mergePeerlist outerBs f).peersWhite = m.peersWhite :=
  mergePeerlist_induction (P := fun m' => m'.peersWhite = m.peersWhite) rfl
    (fun m' ple h => (peersWhite_appendWithPeerGray m' ple).trans h) (fun _ h => h) outerBs f

end

theorem sound_fresh (allowLocalIp : Bool) : Sound (fresh allowLocalIp) where
  apart := fun e he => absurd he (TimedIndex.notMem_empty e)
  white_size := Nat.zero_le _
  gray_size := Nat.zero_le _
  one_host := fun e he => absurd he (TimedIndex.notMem_empty e)
  white_allowed := fun e he => absurd he (TimedIndex.notMem_empty e)
  gray_allowed := fun g hg => absurd hg (TimedIndex.notMem_empty g)

theorem shrinks_of_eq (hallow : m'.allowLocalIp = m.allowLocalIp) (hwhite : m'.peersWhite = m.peersWhite)
    (hgray : m'.peersGray = m.peersGray) : Shrinks m m' :=
  ⟨hallow, fun _ he => hwhite ▸ he, fun _ hg => hgray ▸ hg, (congrArg TimedIndex.size hwhite).le, (congrArg TimedIndex.size hgray).le⟩

theorem Sound.step (hm : Sound m) (call : Call) : Sound (m.step call) := by
  cases call with
  | mergePeerlist outerBs f => exact hm.mergePeerlist outerBs f
  | appendWithPeerWhite ple trustLastSeen => exact hm.appendWithPeerWhite
  | appendWithPeerGray ple => exact hm.appendWithPeerGray
  | appendWithPeerAnchor ple => exact (@shrinks_of_eq m (m.appendWithPeerAnchor ple) rfl rfl rfl).sound hm
  | setPeerJustSeen now peer addr pruningSeed rpcPort rpcCreditsPerHash => exact hm.appendWithPeerWhite
  | removeFromPeerWhite pe => exact (shrinks_filter m true _).sound hm
  | removeFromPeerGray pe => exact (shrinks_filter m false _).sound hm
  | removeFromPeerAnchor addr => exact (@shrinks_of_eq m (m.removeFromPeerAnchor addr) rfl rfl rfl).sound hm
  | getAndEmptyAnchorPeerlist => exact (@shrinks_of_eq m m.getAndEmptyAnchorPeerlist.1 rfl rfl rfl).sound hm
  | filter white f => exact (shrinks_filter m white f).sound hm
  | evictHostFromPeerlist useWhite pr => exact (shrinks_filter m useWhite _).sound hm

theorem keeps_of_eq (h : m'.peersWhite = m.peersWhite) : Keeps m m' := by
  intro e he e' he' hadr
  rw [h] at he'
  rw [TimedIndex.eq_of_key he he' hadr]

theorem keeps_step (m : PeerlistManager) (call : Call) (h : ¬call.Seen) : Keeps m (m.step call) := by
  cases call with
  | mergePeerlist outerBs f => exact keeps_of_eq (peersWhite_mergePeerlist m outerBs f)
  | appendWithPeerWhite ple trustLastSeen =>
    rw [Bool.eq_false_iff.mpr h]
    exact keeps_appendWithPeerWhite m ple
  | appendWithPeerGray ple => exact keeps_of_eq (peersWhite_appendWithPeerGray m ple)
  | appendWithPeerAnchor ple => exact keeps_of_eq rfl
  | setPeerJustSeen now peer addr pruningSeed rpcPort rpcCreditsPerHash => exact absurd trivial h
  | removeFromPeerWhite pe => exact (shrinks_filter m true _).keeps
  | removeFromPeerGray pe => exact keeps_of_eq rfl
  | removeFromPeerAnchor addr => exact keeps_of_eq rfl
  | getAndEmptyAnchorPeerlist => exact keeps_of_eq rfl
  | filter white f => exact (shrinks_filter m white f).keeps
  | evictHostFromPeerlist useWhite pr => exact (shrinks_filter m useWhite _).keeps

section

theorem peersAnchor_appendWithPeerWhite (m : PeerlistManager) (ple : PeerlistEntry) (trustLastSeen : Bool) :
    (m.appendWithPeerWhite ple trustLastSeen).peersAnchor = m.peersAnchor := by
  rcases appendWithPeerWhite_cases m ple trustLastSeen with
    hsame | ⟨-, -, hresult⟩ | ⟨-, known, new, -, -, -, hresult⟩
  · rw [hsame]
  · rw [hresult]
  · rw [hresult]

theorem peersAnchor_appendWithPeerGray (m : PeerlistManager) (ple : PeerlistEntry) :
    (m.appendWithPeerGray ple).peersAnchor = m.peersAnchor := by
  rcases appendWithPeerGray_cases m ple with hsame | ⟨-, -, ⟨-, hresult⟩ | ⟨known, new, -, -, hresult⟩⟩
  · rw [hsame]
  · rw [hresult]
  · rw [hresult]

theorem peersAnchor_mergePeerlist (m : PeerlistManager) (outerBs : List PeerlistEntry) (f : Option (PeerlistEntry → Bool)) :
    (m.mergePeerlist outerBs f).peersAnchor = m.peersAnchor :=
  mergePeerlist_induction (P := fun m' => m'.peersAnchor = m.peersAnchor) rfl
    (fun m' ple h => (peersAnchor_appendWithPeerGray m' ple).trans h) (fun _ h => h) outerBs f

theorem peersAnchor_filter (m : PeerlistManager) (white : Bool) (f : PeerlistEntry → Bool) :
    (m.filter white f).peersAnchor = m.peersAnchor := by
  rw [filter]
  split_ifs <;> rfl

theorem anchor_of_step {call : Call} {a : AnchorPeerlistEntry} (h : a ∈ (m.step call).peersAnchor) :
    a ∈ m.peersAnchor ∨ call = .appendWithPeerAnchor a := by
  cases call with
  | mergePeerlist outerBs f => exact .inl (peersAnchor_mergePeerlist m outerBs f ▸ h)
  | appendWithPeerWhite ple trustLastSeen => exact .inl (peersAnchor_appendWithPeerWhite m ple trustLastSeen ▸ h)
  | appendWithPeerGray ple => exact .inl (peersAnchor_appendWithPeerGray m ple ▸ h)
  | appendWithPeerAnchor ple =>
    change a ∈ m.peersAnchor.insert ple at h
    by_cases hnone : m.peersAnchor.find ple.adr = none
    · rcases (TimedIndex.mem_insert hnone).mp h with rfl | h
      · exact .inr rfl
      · exact .inl h
    · rw [TimedIndex.insert, dif_neg hnone] at h
      exact .inl h
  | setPeerJustSeen now peer addr pruningSeed rpcPort rpcCreditsPerHash =>
    exact .inl (peersAnchor_appendWithPeerWhite m _ true ▸ h)
  | removeFromPeerWhite pe => exact .inl h
  | removeFromPeerGray pe => exact .inl h
  | removeFromPeerAnchor addr => exact .inl (TimedIndex.mem_erase.mp h).1
  | getAndEmptyAnchorPeerlist => exact absurd h (TimedIndex.notMem_empty a)
  | filter white f => exact .inl (peersAnchor_filter m white f ▸ h)
  | evictHostFromPeerlist useWhite pr => exact .inl (peersAnchor_filter m useWhite _ ▸ h)

theorem anchor_of_run {calls : List Call} {a : AnchorPeerlistEntry} (h : a ∈ (calls.foldl step m).peersAnchor) :
    a ∈ m.peersAnchor ∨ .appendWithPeerAnchor a ∈ calls := by
  induction calls generalizing m with
  | nil => exact .inl h
  | cons call calls ih =>
    rcases ih h with h | h
    · rcases anchor_of_step h with h | rfl
      · exact .inl h
      · exact .inr List.mem_cons_self
    · exact .inr (List.mem_cons_of_mem _ h)

end

def after (allowLocalIp : Bool) (calls : List Call) : PeerlistManager := calls.foldl step (fresh allowLocalIp)

theorem after_append_singleton (allowLocalIp : Bool) (calls : List Call) (call : Call) :
    after allowLocalIp (calls ++ [call]) = (after allowLocalIp calls).step call := List.foldl_concat ..

theorem sound_after (allowLocalIp : Bool) (calls : List Call) : Sound (after allowLocalIp calls) := by
  refine Effects.foldl_invariant (C := fun _ _ => True) (sound_fresh allowLocalIp) ?_ fun _ _ _ _ => trivial
  exact fun m call _ hm _ => hm.step call

theorem peerlist_sound (allowLocalIp : Bool) (calls : List Call) :
    (∀ e ∈ (after allowLocalIp calls).peersWhite, ∀ g ∈ (after allowLocalIp calls).peersGray, e.adr ≠ g.adr) ∧
    (after allowLocalIp calls).peersWhite.size ≤ localWhitePeerlistLimit ∧
    (after allowLocalIp calls).peersGray.size ≤ localGrayPeerlistLimit ∧
    (∀ e ∈ (after allowLocalIp calls).peersWhite, ∀ e' ∈ (after allowLocalIp calls).peersWhite,
      e.adr.isSameHost e'.adr = true → e = e') ∧
    (∀ e, e ∈ (after allowLocalIp calls).peersWhite ∨ e ∈ (after allowLocalIp calls).peersGray →
      (after allowLocalIp calls).isHostAllowed e.adr = true) ∧
    (∀ a ∈ (after allowLocalIp calls).peersAnchor, Call.appendWithPeerAnchor a ∈ calls) ∧
    ∀ done call rest, calls = done ++ call :: rest → ¬call.Seen →
      Keeps (after allowLocalIp done) (after allowLocalIp (done ++ [call])) := by
  have hsound := sound_after allowLocalIp calls
  refine ⟨hsound.apart, hsound.white_size, hsound.gray_size, hsound.one_host, ?_, ?_, ?_⟩
  · rintro e (he | he)
    · exact hsound.white_allowed e he
    · exact hsound.gray_allowed e he
  · intro a ha
    rcases anchor_of_run ha with hempty | hcall
    · exact absurd hempty (TimedIndex.notMem_empty a)
    · exact hcall
  · rintro done call rest - hseen
    rw [after_append_singleton]
    exact keeps_step _ call hseen

def loopbackAnchor : AnchorPeerlistEntry := ⟨.ipv4 0x0100007f 18080, 1, 0⟩

theorem anchor_not_allowed :
    loopbackAnchor ∈ (after false [.appendWithPeerAnchor loopbackAnchor]).peersAnchor ∧
      (after false [.appendWithPeerAnchor loopbackAnchor]).isHostAllowed loopbackAnchor.adr = false := by
  refine ⟨(TimedIndex.mem_insert rfl).mpr (.inl rfl), ?_⟩
  decide

end PeerlistManager

end Velkavo.P2p
