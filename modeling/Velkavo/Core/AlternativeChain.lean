import Velkavo.Core.ProofOfWork

namespace Velkavo.Core

open Cryptonote HashChain

variable {n : Network} {s : Blockchain} {r : Rules} {prevId : Hash} {altChain : List BlockExtendedInfo}

structure AltPath (n : Network) (prevId : Hash) (chain : List BlockExtendedInfo) (next : Hash) : Prop where
  known : ∀ bei ∈ chain, ∃ l, n.Below l bei.bl ∧ l.length = bei.height
  links : (chain.map BlockExtendedInfo.bl).IsChain fun a b => b.prevId = n.id a
  head : next = (chain.head?.map fun bei => bei.bl.prevId).getD prevId
  last : ∀ bei ∈ chain.getLast?, n.id bei.bl = prevId

theorem AltPath.nil : AltPath n prevId [] prevId := ⟨by simp, by simp, rfl, by simp⟩

theorem AltPath.cons {next : Hash} {bei : BlockExtendedInfo} (h : AltPath n prevId altChain next)
    (hstore : StoreInv n s.db s.altBlocks) (hfound : s.altBlocks.lookup next = some bei) :
    AltPath n prevId (bei :: altChain) bei.bl.prevId := by
  obtain ⟨hid, hknown⟩ := hstore.alt hfound
  cases altChain with
  | nil =>
    have hnext : next = prevId := h.head
    exact ⟨by simpa using hknown, by simp, rfl, by simpa [hid] using hnext⟩
  | cons front rest =>
    have hnext : next = front.bl.prevId := h.head
    refine ⟨List.forall_mem_cons.mpr ⟨hknown, h.known⟩, ?_, rfl, ?_⟩
    · rw [List.map_cons, List.map_cons, List.isChain_cons_cons]
      exact ⟨by rw [hid, hnext], h.links⟩
    · simpa using h.last

theorem AltPath.altWalk (hstore : StoreInv n s.db s.altBlocks) (fuel : ℕ) {next : Hash}
    (h : AltPath n prevId altChain next) : ∃ next', AltPath n prevId (s.altWalk fuel next altChain) next' := by
  induction fuel generalizing next altChain with
  | zero => exact ⟨next, h⟩
  | succ fuel ih =>
    rw [Blockchain.altWalk]
    split
    · exact ⟨next, h⟩
    · exact ih (h.cons hstore ‹_›)

structure Forked (n : Network) (s : Blockchain) (prevId : Hash) (altChain : List BlockExtendedInfo)
    (fork : ℕ) : Prop where
  pos : 0 < fork
  le : fork ≤ s.db.length
  branch : n.Branch ((s.db.map DbBlock.bl).take fork ++ altChain.map BlockExtendedInfo.bl)
  tip : tip n.id ((s.db.map DbBlock.bl).take fork ++ altChain.map BlockExtendedInfo.bl) = some prevId
  parent : altChain = [] → fork = s.getBlockHeightOf n.toHashFunctions prevId + 1
  front : ∀ bei ∈ altChain.head?,
    fork < s.db.length ∧ (s.ids n.toHashFunctions)[fork - 1]? = some bei.bl.prevId
  height : ∀ {i bei}, altChain[i]? = some bei → bei.height = fork + i

theorem Forked.of_main (h : Inv n s) (hexists : s.blockExists n.toHashFunctions prevId = true) :
    Forked n s prevId [] (s.getBlockHeightOf n.toHashFunctions prevId + 1) := by
  have hmem : prevId ∈ s.ids n.toHashFunctions := by simpa [Blockchain.blockExists] using hexists
  have hlt : (s.ids n.toHashFunctions).idxOf prevId < (s.ids n.toHashFunctions).length :=
    List.idxOf_lt_length_of_mem hmem
  have hget : (s.ids n.toHashFunctions)[(s.ids n.toHashFunctions).idxOf prevId]? = some prevId :=
    List.getElem?_idxOf hmem
  have htip : HashChain.tip n.id ((s.db.map DbBlock.bl).take (s.getBlockHeightOf n.toHashFunctions prevId + 1)) =
      some prevId := by
    rw [Blockchain.ids_eq, List.getElem?_map] at hget
    obtain ⟨b, hb, hid⟩ := Option.map_eq_some_iff.mp hget
    rw [Blockchain.getBlockHeightOf, Blockchain.ids_eq, Branch.tip_take hb, hid]
  rw [Blockchain.length_ids] at hlt
  refine ⟨Nat.succ_pos _, hlt, ?_, ?_, fun _ => rfl, by simp, by simp⟩
  · rw [List.map_nil, List.append_nil]
    exact h.store.branch.take (Nat.succ_pos _)
  · rw [List.map_nil, List.append_nil]
    exact htip

theorem Forked.of_path {front : BlockExtendedInfo} {rest : List BlockExtendedInfo} {next : Hash}
    (h : Inv n s) (hpath : AltPath n prevId (front :: rest) next) (hlen : front.height < s.db.length)
    (hconn : (s.ids n.toHashFunctions)[front.height - 1]? = some front.bl.prevId) :
    Forked n s prevId (front :: rest) front.height := by
  obtain ⟨l, hl, hheight⟩ := hpath.known front List.mem_cons_self
  have hpos : 0 < front.height := by rw [← hheight]; exact hl.length_pos
  have hmain : HashChain.tip n.id ((s.db.map DbBlock.bl).take front.height) = some front.bl.prevId := by
    rw [Blockchain.ids_eq, List.getElem?_map] at hconn
    obtain ⟨b, hb, hid⟩ := Option.map_eq_some_iff.mp hconn
    rw [← hid, ← Branch.tip_take hb, Nat.sub_add_cancel hpos]
  have hmem : ∀ b ∈ (front :: rest).map BlockExtendedInfo.bl, b ∈ n.blocks := by
    intro b hb
    obtain ⟨bei, hbei, rfl⟩ := List.mem_map.mp hb
    obtain ⟨l, hl, -⟩ := hpath.known bei hbei
    exact hl.mem
  have hbranch : n.Branch ((s.db.map DbBlock.bl).take front.height ++ (front :: rest).map BlockExtendedInfo.bl) :=
    (h.store.branch.take hpos).append hpath.links (by simpa using hmain) hmem
  have htake : ((s.db.map DbBlock.bl).take front.height).length = front.height := by
    rw [List.length_take, List.length_map]
    omega
  refine ⟨hpos, hlen.le, hbranch, ?_, by simp, ?_, ?_⟩
  · obtain ⟨last, hlast⟩ := List.getLast?_isSome.mpr (List.cons_ne_nil front rest) |> Option.isSome_iff_exists.mp
    rw [HashChain.tip, List.getLast?_append_of_ne_nil _ (by simp), List.getLast?_map, hlast]
    exact congrArg some (hpath.last last hlast)
  · intro bei hbei
    cases hbei
    exact ⟨hlen, hconn⟩
  · intro i bei hbei
    -- the ancestors that were known when the block was stored are the ones on this branch
    obtain ⟨l, hl, hheight⟩ := hpath.known bei (List.mem_of_getElem? hbei)
    have hget : ((s.db.map DbBlock.bl).take front.height ++
        (front :: rest).map BlockExtendedInfo.bl)[front.height + i]? = some bei.bl := by
      rw [List.getElem?_append_right (by omega), htake, Nat.add_sub_cancel_left, List.getElem?_map, hbei]
      rfl
    have hbelow : n.Below (((s.db.map DbBlock.bl).take front.height ++
        (front :: rest).map BlockExtendedInfo.bl).take (front.height + i)) bei.bl :=
      ⟨hbranch.take (by omega), hbranch.tip_take_getElem (by omega) hget, hl.mem⟩
    rw [← hheight, hl.length_eq hbelow rfl, List.length_take]
    have hlt := (List.getElem?_eq_some_iff.mp hget).1
    omega

theorem Inv.forked (h : Inv n s) (hbuild : s.buildAltChain n.toHashFunctions prevId = some altChain) :
    ∃ fork, Forked n s prevId altChain fork := by
  obtain ⟨next, hpath⟩ := (AltPath.nil : AltPath n prevId [] prevId).altWalk h.store
    ((s.altBlocks.lookup prevId).elim 0 BlockExtendedInfo.height)
  rw [Blockchain.buildAltChain] at hbuild
  split at hbuild
  · split_ifs at hbuild with hexists
    cases hbuild
    exact ⟨_, .of_main h hexists⟩
  · rename_i front rest hwalk
    split_ifs at hbuild with hlen hexists hconn
    cases hbuild
    rw [hwalk] at hpath ⊢
    exact ⟨_, .of_path h hpath (by omega) (not_not.mp hconn)⟩

namespace Forked

variable {fork : ℕ}

theorem length_eq (h : Forked n s prevId altChain fork) :
    ((s.db.map DbBlock.bl).take fork ++ altChain.map BlockExtendedInfo.bl).length = fork + altChain.length := by
  have hle := h.le
  simp only [List.length_append, List.length_take, List.length_map]
  omega

theorem parentOf_eq (h : Forked n s prevId altChain fork) :
    (s.parentOf n.toHashFunctions altChain prevId).1 + 1 = fork + altChain.length := by
  rw [Blockchain.parentOf]
  split
  · rename_i prev hlast
    rw [List.getLast?_eq_getElem?] at hlast
    have hlt := (List.getElem?_eq_some_iff.mp hlast).1
    have hheight := h.height hlast
    dsimp only
    omega
  · rename_i hlast
    rw [List.getLast?_eq_none_iff] at hlast
    rw [h.parent hlast, hlast]
    rfl

theorem below (h : Forked n s prevId altChain fork) {b : Block} (hb : b ∈ n.blocks) (hprev : b.prevId = prevId) :
    n.Below ((s.db.map DbBlock.bl).take fork ++ altChain.map BlockExtendedInfo.bl) b :=
  ⟨h.branch, by rw [h.tip, hprev], hb⟩

theorem getBlockIdByHeight_eq (h : Forked n s prevId altChain fork) {i : ℕ} (hi : i < fork) :
    (((s.db.map DbBlock.bl).take fork ++ altChain.map BlockExtendedInfo.bl).map n.id)[i]? =
      some (s.getBlockIdByHeight n.toHashFunctions i) := by
  have hle := h.le
  rw [List.map_append, List.map_take, ← Blockchain.ids_eq, List.getElem?_append_left, List.getElem?_take_of_lt hi,
    Blockchain.getBlockIdByHeight, List.getElem?_eq_getElem, Option.getD_some]
  · rw [Blockchain.length_ids]
    omega
  · rw [List.length_take, Blockchain.length_ids]
    omega

theorem altSeedhash_eq (h : Forked n s prevId altChain fork) {i : ℕ}
    (hi : i < fork ∨ i + 1 < fork + altChain.length) :
    (((s.db.map DbBlock.bl).take fork ++ altChain.map BlockExtendedInfo.bl).map n.id)[i]? =
      some (s.altSeedhash n.toHashFunctions altChain i) := by
  cases altChain with
  | nil =>
    apply h.getBlockIdByHeight_eq
    simp only [List.length_nil] at hi
    omega
  | cons front rest =>
    have hhead : (front :: rest)[0]? = some front := rfl
    have hfront : front.height = fork := h.height hhead
    rw [Blockchain.altSeedhash]
    split_ifs with hlow
    · have hlt : i + 1 - fork < (front :: rest).length := by omega
      have hget := List.getElem?_eq_getElem hlt
      have hheight := h.height hget
      cases hfind : (front :: rest).find? fun it => it.height = i + 1 with
      | none =>
        have hnone := List.find?_eq_none.mp hfind _ (List.getElem_mem hlt)
        rw [decide_eq_true_eq] at hnone
        exact absurd (by omega) hnone
      | some it =>
        obtain ⟨j, hj⟩ := List.getElem?_of_mem (List.mem_of_find?_eq_some hfind)
        have hit : it.height = i + 1 := by simpa using List.find?_some hfind
        have hjt := h.height hj
        apply h.branch.prev_getElem
        have htake : ((s.db.map DbBlock.bl).take fork).length = fork := by
          rw [List.length_take, List.length_map]
          have := h.le
          omega
        rw [List.getElem?_append_right (by omega), htake, List.getElem?_map,
          show i + 1 - fork = j by omega, hj]
        rfl
    · exact h.getBlockIdByHeight_eq (by omega)

theorem compare (h : Forked n s prevId altChain fork) (path : Path) (height : ℕ) (bl : Block) (pow : Hash) :
    Forked n (s.compare path height bl pow) prevId altChain fork :=
  ⟨h.pos, h.le, h.branch, h.tip, h.parent, h.front, h.height⟩

theorem powOf_altProofOfWork (h : Forked n s prevId altChain fork) {bei : BlockExtendedInfo}
    (hb : bei.bl ∈ n.blocks) (hprev : bei.bl.prevId = prevId) (hheight : bei.height = fork + altChain.length) :
    n.PowOf bei.bl bei.height (s.altProofOfWork n.toHashFunctions altChain bei) := by
  have hbelow := h.below hb hprev
  have hlen : (((s.db.map DbBlock.bl).take fork ++ altChain.map BlockExtendedInfo.bl).map n.id).length =
      bei.height := by rw [List.length_map, h.length_eq, hheight]
  rw [Blockchain.altProofOfWork]
  split_ifs with hrx
  · refine ⟨_, hbelow, h.length_eq.trans hheight.symm, fun _ => ?_⟩
    apply getAltblockLonghash_eq_slowHash hrx
    rw [hlen]
    apply h.altSeedhash_eq
    have hpos := h.pos
    rcases rxSeedheight_eq_zero_or bei.height with hzero | hlt
    · exact .inl (by omega)
    · exact .inr (by omega)
  · have hpow := powOf_blockLonghash (s := s) hbelow (fun hge => absurd hge hrx)
    rw [h.length_eq, ← hheight] at hpow
    exact hpow

theorem front_ne_tail (h : Forked n s prevId altChain fork) (hinv : Inv n s) {bei : BlockExtendedInfo}
    (hfront : bei ∈ altChain.head?) : bei.bl.prevId ≠ s.getTailId n.toHashFunctions := by
  obtain ⟨hlt, hconn⟩ := h.front bei hfront
  have hnodup := hinv.store.branch.nodup n.binding
  rw [← Blockchain.ids_eq] at hnodup
  have htail : (s.ids n.toHashFunctions)[s.db.length - 1]? = some (s.getTailId n.toHashFunctions) := by
    have htip := hinv.tip_eq
    rw [HashChain.tip, ← List.getLast?_map, ← Blockchain.ids_eq, List.getLast?_eq_getElem?,
      Blockchain.length_ids] at htip
    exact htip
  intro heq
  rw [← heq, ← hconn] at htail
  have hidx := (List.getElem?_inj (by rw [Blockchain.length_ids]; omega) hnodup).mp htail
  have hpos := h.pos
  omega

end Forked

theorem Sound.removeAltBlocks (h : Sound n s) (blocks : List BlockExtendedInfo) :
    Sound n (s.removeAltBlocks n.toHashFunctions blocks) := by
  have herase : ∀ m : AltBlocks, StoreInv n s.db m →
      StoreInv n s.db (blocks.foldl (fun m bei => m.erase (n.id bei.bl)) m) := by
    induction blocks with
    | nil => exact fun m hm => hm
    | cons bei rest ih =>
      intro m hm
      apply ih
      refine ⟨hm.branch, ?_⟩
      intro k found hfound
      by_cases hk : k = n.id bei.bl
      · rw [hk, AList.lookup_erase] at hfound
        cases hfound
      · rw [AList.lookup_erase_ne hk] at hfound
        exact hm.alt hfound
  exact ⟨⟨herase _ h.inv.store, h.inv.batch, h.inv.checks, h.inv.idle⟩, h.table⟩

theorem Inv.sound_popWhile (h : Inv n s) {prevId : Hash} (hne : prevId ≠ s.getTailId n.toHashFunctions)
    (hexists : s.blockExists n.toHashFunctions prevId = true) :
    Sound n (Blockchain.popWhile (fun s => s.getTailId n.toHashFunctions ≠ prevId) s.db.length s []).1 := by
  have hmem : prevId ∈ s.ids n.toHashFunctions := by simpa [Blockchain.blockExists] using hexists
  have hlen : 1 < s.db.length := by
    by_contra hle
    have hone : (s.ids n.toHashFunctions).length ≤ 1 := by rw [Blockchain.length_ids]; omega
    obtain ⟨x, hx⟩ := List.length_eq_one_iff.mp (le_antisymm hone (List.length_pos_of_mem hmem))
    rw [hx, List.mem_singleton] at hmem
    rw [Blockchain.getTailId, hx] at hne
    exact hne hmem
  obtain ⟨e, he⟩ := Option.isSome_iff_exists.mp
    (List.getLast?_isSome.mpr (List.ne_nil_of_length_pos (by omega : 0 < s.db.length)))
  obtain ⟨fuel, hfuel⟩ : ∃ fuel, s.db.length = fuel + 1 := ⟨s.db.length - 1, by omega⟩
  have hpop : s.popBlockFromBlockchain =
      some ({ s with db := s.db.dropLast, blocksLonghashTable := ∅ }, e.bl) := by
    rw [Blockchain.popBlockFromBlockchain, if_pos hlen, he]
    rfl
  obtain ⟨hinv, hb, hempty⟩ := h.popBlock hpop
  rw [hfuel, Blockchain.popWhile, if_pos (by simpa using hne.symm), hpop]
  have hpopped : ∀ b ∈ [e.bl], b ∈ n.blocks := by simpa using hb
  exact ⟨(hinv.popWhile _ fuel hpopped).1,
    hinv.tableSound_popWhile _ fuel hpopped (tableSound_of_empty hempty)⟩

structure Settles (n : Network) (s s' : Blockchain) : Prop where
  inv : Inv n s'
  or : s'.db = s.db ∧ s'.blocksLonghashTable = s.blocksLonghashTable ∨ TableSound n s'

theorem Sound.of_settles {s' : Blockchain} (h : Settles n s s') (ht : TableSound n s) : Sound n s' := by
  refine ⟨h.inv, ?_⟩
  rcases h.or with ⟨-, htable⟩ | ht'
  · rw [TableSound, htable]
    exact ht
  · exact ht'

theorem Inv.switchToAlternativeBlockchain (h : Inv n s) {handle : Blockchain → Block → Handled} (discard : Bool)
    (hhandle : ∀ s b, Sound n s → b ∈ n.blocks → Sound n (handle s b).chain)
    (hmem : ∀ bei ∈ altChain, bei.bl ∈ n.blocks)
    (hor : TableSound n s ∨ ∀ front ∈ altChain.head?, front.bl.prevId ≠ s.getTailId n.toHashFunctions) :
    Settles n s (s.switchToAlternativeBlockchain n.toHashFunctions r handle altChain discard).1 := by
  have hsame : Settles n s s := ⟨h, .inl ⟨rfl, rfl⟩⟩
  cases altChain with
  | nil => exact hsame
  | cons front rest =>
    rw [Blockchain.switchToAlternativeBlockchain]
    split
    · exact hsame
    rename_i hexists
    rw [Bool.not_eq_true', Bool.not_eq_false] at hexists
    have hpopped : Sound n (Blockchain.popWhile
        (fun s => s.getTailId n.toHashFunctions ≠ front.bl.prevId) s.db.length s []).1 := by
      rcases hor with ht | hne
      · exact Sound.popWhile _ _ ⟨h, ht⟩
      · exact h.sound_popWhile (hne front rfl) hexists
    have hnil : ∀ b ∈ ([] : List Block), b ∈ n.blocks := by simp
    have hdisconnected := (h.popWhile (fun s => s.getTailId n.toHashFunctions ≠ front.bl.prevId) s.db.length
      hnil).2.1
    have hblocks : ∀ b ∈ (front :: rest).map BlockExtendedInfo.bl, b ∈ n.blocks := by
      simpa only [List.forall_mem_map] using hmem
    suffices hsound : ∀ s' : Blockchain, Sound n s' → Settles n s s' by
      dsimp only
      split
      · exact hsound _ hpopped
      split
      · exact hsound _ (((hpopped.connect hblocks).rollback hdisconnected).removeAltBlocks _)
      · apply hsound
        apply Sound.removeAltBlocks
        split
        · exact hpopped.connect hblocks
        · -- the disconnected blocks are pushed back one by one
          have hpush : ∀ (blocks : List Block) (s : Blockchain), (∀ b ∈ blocks, b ∈ n.blocks) → Sound n s →
              Sound n (blocks.foldl (fun s bl => (handle s bl).chain) s) := by
            intro blocks
            induction blocks with
            | nil => exact fun s _ hs => hs
            | cons b blocks ih =>
              intro s hb hs
              obtain ⟨hb, hrest⟩ := List.forall_mem_cons.mp hb
              exact ih _ hrest (hhandle s b hs hb)
          exact hpush _ _ hdisconnected (hpopped.connect hblocks)
    exact fun s' hs' => ⟨hs'.inv, .inr hs'.table⟩

theorem Inv.insertAltBlock (h : Inv n s) {bei : BlockExtendedInfo} {l : List Block} (hl : n.Below l bei.bl)
    (hlen : l.length = bei.height) :
    Inv n { s with altBlocks := s.altBlocks.insert (n.id bei.bl) bei } where
  store := by
    refine ⟨h.store.branch, ?_⟩
    intro k found hfound
    by_cases hk : k = n.id bei.bl
    · rw [hk, AList.lookup_insert] at hfound
      cases hfound
      exact ⟨hk.symm, l, hl, hlen⟩
    · rw [AList.lookup_insert_ne hk] at hfound
      exact h.store.alt hfound
  batch := h.batch
  checks := h.checks
  idle := h.idle

variable {handle : Blockchain → Block → Handled} {fork : ℕ}

theorem Forked.addAlternativeBlock (h : Forked n s prevId altChain fork) (hinv : Inv n s)
    (hhandle : ∀ s b, Sound n s → b ∈ n.blocks → Sound n (handle s b).chain)
    {bei : BlockExtendedInfo} (hb : bei.bl ∈ n.blocks) (hprev : bei.bl.prevId = prevId)
    (hheight : bei.height = fork + altChain.length)
    (hor : TableSound n s ∨ prevId ≠ s.getTailId n.toHashFunctions) :
    Settles n s (s.addAlternativeBlock n.toHashFunctions r handle altChain bei).chain := by
  have hadded : Inv n { s with altBlocks := s.altBlocks.insert (n.id bei.bl) bei } :=
    hinv.insertAltBlock (h.below hb hprev) (h.length_eq.trans hheight.symm)
  have hmem : ∀ x ∈ altChain ++ [bei], x.bl ∈ n.blocks := by
    intro x hx
    rcases List.mem_append.mp hx with hx | hx
    · exact h.branch.mem _ (List.mem_append_right _ (List.mem_map_of_mem hx))
    · rw [List.mem_singleton.mp hx]
      exact hb
  have hfront : TableSound n s ∨
      ∀ front ∈ (altChain ++ [bei]).head?, front.bl.prevId ≠ s.getTailId n.toHashFunctions := by
    refine hor.imp (fun ht => ht) (fun hne front hfront => ?_)
    cases altChain with
    | nil =>
      cases hfront
      rw [hprev]
      exact hne
    | cons x rest => exact h.front_ne_tail hinv hfront
  rw [Blockchain.addAlternativeBlock]
  dsimp only
  split
  · exact ⟨hinv, .inl ⟨rfl, rfl⟩⟩
  split
  · have hswitch := fun discard => hadded.switchToAlternativeBlockchain (r := r) discard hhandle hmem hfront
    exact ⟨(hswitch _).inv, (hswitch _).or⟩
  · exact ⟨hadded, .inl ⟨rfl, rfl⟩⟩

theorem Forked.verifyAlternativeBlock {b : Block} (h : Forked n s b.prevId altChain fork) (hinv : Inv n s)
    (hhandle : ∀ s b, Sound n s → b ∈ n.blocks → Sound n (handle s b).chain) (hb : b ∈ n.blocks)
    (hor : TableSound n s ∨ b.prevId ≠ s.getTailId n.toHashFunctions) :
    Settles n s (s.verifyAlternativeBlock n.toHashFunctions r handle altChain b).chain := by
  have hheight : (s.altExtendedInfo n.toHashFunctions r altChain b).height = fork + altChain.length :=
    h.parentOf_eq
  have hsame : Settles n s s := ⟨hinv, .inl ⟨rfl, rfl⟩⟩
  have hcompared := hinv.compare .alternative (h.powOf_altProofOfWork hb rfl hheight)
  rw [Blockchain.verifyAlternativeBlock]
  dsimp only
  split
  · exact hsame
  split
  · exact hsame
  split
  · exact hsame
  split
  · exact ⟨hcompared, .inl ⟨rfl, rfl⟩⟩
  split
  · exact ⟨hcompared, .inl ⟨rfl, rfl⟩⟩
  · -- the comparison changed neither the chain nor the alternative blocks
    have hadd := (h.compare .alternative _ b _).addAlternativeBlock (r := r) hcompared hhandle
      hb rfl hheight hor
    exact ⟨hadd.inv, hadd.or⟩

theorem Inv.handleAlternativeBlock (fuel : ℕ) {b : Block} (h : Inv n s) (hb : b ∈ n.blocks)
    (hor : TableSound n s ∨ b.prevId ≠ s.getTailId n.toHashFunctions) :
    Settles n s (Blockchain.handleAlternativeBlock n.toHashFunctions r fuel s b).chain := by
  induction fuel generalizing s b with
  | zero => exact ⟨h, .inl ⟨rfl, rfl⟩⟩
  | succ fuel ih =>
    have hsame : Settles n s s := ⟨h, .inl ⟨rfl, rfl⟩⟩
    rw [Blockchain.handleAlternativeBlock]
    split
    · exact hsame
    split
    · exact hsame
    split
    · exact hsame
    split
    · exact hsame
    split
    · exact hsame
    · obtain ⟨fork, hfork⟩ := h.forked ‹_›
      exact hfork.verifyAlternativeBlock h (fun s b hs hb => .of_settles (ih hs.inv hb (.inl hs.table)) hs.table)
        hb hor

end Velkavo.Core
