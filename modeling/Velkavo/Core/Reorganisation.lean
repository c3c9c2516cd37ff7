import Velkavo.Core.AltStore

/-! What the nodes of a network agree on after any runs, and that a switch to an alternative chain that fails is undone. -/

namespace Velkavo.Core

open Cryptonote HashChain

variable {n : Network} {s t : Blockchain} {r : Rules} {c : HashFunctions} {bl : Block}

structure Node (n : Network) where
  fuel : ℕ
  actions : List (Rules × Action)
  run : Run n actions

namespace Node

variable {a a' : Node n} {id : Hash} {height height' : ℕ}

def chain (a : Node n) : Blockchain := Core.run n.toHashFunctions a.fuel (.start n.genesis) a.actions

def ids (a : Node n) : List Hash := a.chain.ids n.toHashFunctions

def KnownAt (a : Node n) (id : Hash) (height : ℕ) : Prop :=
  a.ids[height]? = some id ∨ ∃ bei, a.chain.altBlocks.lookup id = some bei ∧ bei.height = height

theorem store (a : Node n) : StoreInv n a.chain.db a.chain.altBlocks := ((sound_start n).run a.run).inv.store

theorem ids_eq (a : Node n) : a.ids = (a.chain.db.map DbBlock.bl).map n.id := Blockchain.ids_eq

theorem KnownAt.branch (h : a.KnownAt id height) : ∃ l, n.Branch l ∧ tip n.id l = some id ∧ l.length = height + 1 := by
  rcases h with hmain | ⟨bei, halt, rfl⟩
  · rw [ids_eq, List.getElem?_map] at hmain
    obtain ⟨b, hb, rfl⟩ := Option.map_eq_some_iff.mp hmain
    have hlt := (List.getElem?_eq_some_iff.mp hb).1
    exact ⟨_, a.store.branch.take height.succ_pos, Branch.tip_take hb, List.length_take_of_le hlt⟩
  · obtain ⟨rfl, l, hl, hlen⟩ := a.store.alt halt
    exact ⟨l ++ [bei.bl], hl.concat, tip_concat l bei.bl, by rw [List.length_append, hlen, List.length_singleton]⟩

theorem heights_agree (h : a.KnownAt id height) (h' : a'.KnownAt id height') : height = height' := by
  obtain ⟨l, hl, htip, hlen⟩ := h.branch
  obtain ⟨m, hm, htip', hlen'⟩ := h'.branch
  have hids := congrArg List.length (hl.map_ident_eq n.binding hm (htip.trans htip'.symm))
  rw [List.length_map, List.length_map] at hids
  omega

section

open Longhash202612

def received (blocks : List Block) (h : ∀ b ∈ blocks, b ∈ forkBlocks) : Node forks where
  fuel := 3
  actions := blocks.map fun b => (rules, .singleIncomingBlock b)
  run action haction b hb := by
    obtain ⟨x, hx, rfl⟩ := List.mem_map.mp haction
    rw [List.mem_singleton.mp hb]
    exact h x hx

def first : Node forks := received [above 1 0 11] (by simp [forkBlocks])

def second : Node forks := received [chainBlock 1, above 1 0 11] (by simp [forkBlocks])

theorem heights_agree_second : first.KnownAt (forks.id (above 1 0 11)) 1 ∧ second.KnownAt (forks.id (above 1 0 11)) 1 ∧ 1 = 1 :=
  have halt : second.KnownAt (forks.id (above 1 0 11)) 1 := .inr ⟨⟨above 1 0 11, 1, 2⟩, rfl, rfl⟩
  ⟨.inl rfl, halt, @heights_agree _ first second _ _ _ (.inl rfl) halt⟩

end

end Node

namespace Blockchain

variable {id : Hash} {split : ℕ}

def others (s : Blockchain) : AltBlocks × List Hash × ℕ × List Block :=
  (s.altBlocks, s.blocksHashCheck, s.prepareHeight, s.prepareBlocks)

structure Keeps (s t : Blockchain) : Prop where
  others : t.others = s.others
  table : t.blocksLonghashTable = s.blocksLonghashTable ∨ t.blocksLonghashTable = ∅

theorem Keeps.trans {u : Blockchain} (h : s.Keeps t) (h' : t.Keeps u) : s.Keeps u :=
  ⟨h'.others.trans h.others, h'.table.elim (fun heq => h.table.imp heq.trans heq.trans) .inr⟩

structure Extends (s t : Blockchain) : Prop extends Keeps s t where
  db : s.db <+: t.db

theorem Extends.of_eq (hdb : t.db = s.db) (hothers : t.others = s.others)
    (htable : t.blocksLonghashTable = s.blocksLonghashTable) : s.Extends t :=
  ⟨⟨hothers, .inl htable⟩, hdb ▸ List.prefix_rfl⟩

theorem extends_addBlockToMainChain (hne : s.db ≠ []) (fastCheck : Bool) (diffic : Difficulty)
    (bvc : BlockVerificationContext) : s.Extends (s.addBlockToMainChain c r fastCheck bl diffic bvc).chain := by
  rw [addBlockToMainChain]
  dsimp only
  split
  · exact .of_eq rfl rfl rfl
  split
  · exact .of_eq rfl rfl rfl
  split
  · exact .of_eq rfl rfl rfl
  split
  · rw [popBlockFromBlockchain_eq List.getLast?_concat (by simpa using List.length_pos_of_ne_nil hne)]
    exact ⟨⟨rfl, .inr rfl⟩, by simp⟩
  · exact ⟨⟨rfl, .inl rfl⟩, List.prefix_append _ _⟩

theorem extends_handleBlockToMainChain (hne : s.db ≠ []) (bvc : BlockVerificationContext) :
    s.Extends (s.handleBlockToMainChain c r bl bvc).chain := by
  rw [handleBlockToMainChain]
  split
  · exact .of_eq rfl rfl rfl
  split
  · exact .of_eq rfl rfl rfl
  dsimp only
  split
  · exact .of_eq rfl rfl rfl
  split
  · split
    · exact .of_eq rfl rfl rfl
    · exact extends_addBlockToMainChain hne true _ bvc
  · split
    · exact .of_eq rfl rfl rfl
    · obtain ⟨⟨hothers, htable⟩, hdb⟩ := @extends_addBlockToMainChain (s.compare .main s.db.length bl (s.proofOfWork c bl))
        r c bl hne false (r.getDifficultyForNextBlock s) bvc
      exact ⟨⟨hothers, htable⟩, hdb⟩

theorem extends_connect (hne : s.db ≠ []) (blocks : List Block) : s.Extends (s.connect c r blocks).1 := by
  induction blocks generalizing s with
  | nil => exact .of_eq rfl rfl rfl
  | cons bl rest ih =>
    have hstep : s.Extends (s.handleBlockToMainChain c r bl {}).chain := extends_handleBlockToMainChain hne {}
    rw [connect]
    split_ifs
    · have hrest := ih (hstep.db.ne_nil hne)
      exact ⟨hstep.toKeeps.trans hrest.toKeeps, hstep.db.trans hrest.db⟩
    · exact hstep

def AcceptsAgain (c : HashFunctions) (r : Rules) (s : Blockchain) (split : ℕ) : Prop :=
  ∀ (t : Blockchain) (j : ℕ) (e : DbBlock), split ≤ j → s.db[j]? = some e → t.db = s.db.take j → s.Keeps t →
    (t.connect c r [e.bl]).2 = [] ∧ (t.connect c r [e.bl]).1.db = s.db.take (j + 1)

theorem connect_cons {rest : List Block} (h : (s.connect c r [bl]).2 = []) :
    s.connect c r (bl :: rest) = (s.connect c r [bl]).1.connect c r rest := by
  rw [connect] at h
  rw [connect, connect]
  split_ifs at h ⊢
  rfl

theorem connect_again {j : ℕ} (h : AcceptsAgain c r s split) (hne : t.db ≠ []) (hj : split ≤ j)
    (hdb : t.db = s.db.take j) (hkeeps : s.Keeps t) : (t.connect c r ((s.db.drop j).map DbBlock.bl)).1.db = s.db := by
  induction hm : s.db.length - j generalizing t j with
  | zero =>
    rw [List.drop_eq_nil_of_le (by omega)]
    exact hdb.trans (List.take_of_length_le (by omega))
  | succ m ih =>
    have hlt : j < s.db.length := by omega
    obtain ⟨hnone, hchain⟩ := h t j _ hj (List.getElem?_eq_getElem hlt) hdb hkeeps
    have hstep : t.Extends (t.connect c r [s.db[j].bl]).1 := extends_connect hne _
    rw [List.drop_eq_getElem_cons hlt, List.map_cons, connect_cons hnone]
    exact ih (hstep.db.ne_nil hne) (by omega) hchain (hkeeps.trans hstep.toKeeps) (by omega)

theorem getTailId_take {j : ℕ} (ht : t.db = s.db.take (j + 1)) (hid : (s.ids c)[j]? = some id) : t.getTailId c = id := by
  have hids : t.ids c = (s.ids c).take (j + 1) := by rw [ids, ids, ht, List.map_take]
  rw [getTailId, hids, List.take_add_one, hid]
  simp

theorem keeps_popWhile (go : Blockchain → Bool) (fuel : ℕ) (popped : List Block) :
    s.Keeps (popWhile go fuel s popped).1 := by
  induction fuel generalizing s popped with
  | zero => exact ⟨rfl, .inl rfl⟩
  | succ fuel ih =>
    rw [popWhile]
    split
    · rw [popBlockFromBlockchain]
      split_ifs
      · cases s.db.getLast? with
        | none => exact ⟨rfl, .inl rfl⟩
        | some e =>
          have hpopped : s.Keeps { s with db := s.db.dropLast, blocksLonghashTable := ∅ } := ⟨rfl, .inr rfl⟩
          exact hpopped.trans (ih _)
      · exact ⟨rfl, .inl rfl⟩
    · exact ⟨rfl, .inl rfl⟩

theorem popWhile_parent (hnodup : (s.ids c).Nodup) (hsplit : (s.ids c)[split]? = some id) :
    ∃ t, popWhile (fun t => t.getTailId c ≠ id) s.db.length s [] = (t, (s.db.drop (split + 1)).map DbBlock.bl) ∧
      t.db = s.db.take (split + 1) ∧ s.Keeps t := by
  have hlen : (s.ids c).length = s.db.length := List.length_map _
  have hlt := (List.getElem?_eq_some_iff.mp hsplit).1
  have hgo : ∀ (t : Blockchain) (j : ℕ), split + 1 < j → j ≤ s.db.length → t.db = s.db.take j →
      decide (t.getTailId c ≠ id) = true := by
    intro t j hj hle ht
    obtain ⟨i, rfl⟩ : ∃ i, j = i + 1 := ⟨j - 1, by omega⟩
    have hi := List.getElem?_eq_getElem (hlen ▸ hle : i < (s.ids c).length)
    rw [getTailId_take ht hi]
    refine decide_eq_true fun heq => ?_
    rw [heq, ← hsplit] at hi
    have hsame := (List.getElem?_inj hlt hnodup).mp hi.symm
    omega
  obtain ⟨table, hpop⟩ := @popWhile_eq s _ _ s.db.length split.succ_pos (hlen ▸ hlt) (by omega) [] hgo
    (.inr fun t ht => decide_eq_false (not_not.mpr (getTailId_take ht hsplit)))
  rw [List.append_nil] at hpop
  have hkeeps := @keeps_popWhile s (fun t => t.getTailId c ≠ id) s.db.length []
  rw [hpop] at hkeeps
  exact ⟨_, hpop, rfl, hkeeps⟩

theorem rollback_restores {u : Blockchain} (hagain : AcceptsAgain c r s split) (hne : t.db ≠ [])
    (hdb : t.db = s.db.take split) (hkeeps : s.Keeps t) (hext : t.Extends u) :
    (u.rollbackBlockchainSwitching c r ((s.db.drop split).map DbBlock.bl) t.db.length).db = s.db := by
  have hpos := List.length_pos_of_ne_nil hne
  have hle := hext.db.length_le
  obtain ⟨table, hpop⟩ := popWhile_height (by omega) hle
  have hpopped := @keeps_popWhile u (fun s => s.db.length ≠ t.db.length) u.db.length []
  rw [max_eq_left hpos, ← List.prefix_iff_eq_take.mp hext.db] at hpop
  rw [hpop] at hpopped
  rw [rollbackBlockchainSwitching, if_neg (by omega), hpop]
  exact connect_again hagain hne le_rfl hdb ((hkeeps.trans hext.toKeeps).trans hpopped)

theorem switch_fails_restores {handle : Blockchain → Block → Handled} {front : BlockExtendedInfo}
    {rest : List BlockExtendedInfo} {discard : Bool} (hnodup : (s.ids c).Nodup)
    (hsplit : (s.ids c)[split]? = some front.bl.prevId)
    (hlimit : ∀ t : Blockchain, t.db = s.db.take (split + 1) → s.Keeps t → r.updateNextCumulativeWeightLimit t = true)
    (hagain : AcceptsAgain c r s (split + 1))
    (hfails : (s.switchToAlternativeBlockchain c r handle (front :: rest) discard).2 = false) :
    (s.switchToAlternativeBlockchain c r handle (front :: rest) discard).1.db = s.db := by
  obtain ⟨t, hpop, hdb, hkeeps⟩ := popWhile_parent hnodup hsplit
  have hexists : s.blockExists c front.bl.prevId = true := decide_eq_true (List.mem_of_getElem? hsplit)
  have hne : t.db ≠ [] := by
    rintro hnil
    rw [hnil, eq_comm, List.take_eq_nil_iff] at hdb
    rw [ids, hdb.resolve_left split.succ_ne_zero] at hsplit
    cases hsplit
  simp only [switchToAlternativeBlockchain, hexists, hpop, hlimit t hdb hkeeps, Bool.not_true, Bool.false_eq_true,
    if_false] at hfails ⊢
  split_ifs at hfails ⊢
  exact rollback_restores hagain hne hdb hkeeps (extends_connect hne _)

end Blockchain

section

open Longhash202612

def lowVersionsOnly : Rules := { rules with checkMain := fun _ b => b.majorVersion < rxBlockVersion }

def oneBlockUp : Blockchain :=
  { Blockchain.start (chainBlock 0) with db := [⟨chainBlock 0, 1⟩, ⟨chainBlock 1, 2⟩] }

theorem switch_fails_restores_oneBlockUp : (oneBlockUp.switchToAlternativeBlockchain hashes lowVersionsOnly
    (fun s _ => ⟨s, {}, true⟩) [⟨above 1 0 11, 1, 3⟩] false).1.db = oneBlockUp.db := by
  refine @Blockchain.switch_fails_restores _ _ _ 0 _ _ _ _ (by decide +kernel) rfl (fun t _ _ => rfl) ?_ rfl
  rintro ⟨db, _, _, _, _, _, _, _, _, _⟩ j e hj he (rfl : db = _) ⟨hothers, -⟩
  cases hothers
  have hlt : j < 2 := (List.getElem?_eq_some_iff.mp he).1
  obtain rfl : j = 1 := by omega
  cases he
  exact ⟨rfl, rfl⟩

end

end Velkavo.Core
