import Velkavo.Cryptonote.Basic

/-! The object that says which rules are active, next to the part of the database that it reads and writes. -/

namespace Velkavo.Cryptonote

structure HardforkT where
  version : UInt8
  height : ℕ
  threshold : UInt8
  time : ℤ
  deriving DecidableEq

def mainnetHardForks : List HardforkT :=
  [⟨1, 1, 0, 1341378000⟩, ⟨2, 2, 0, 1341378001⟩, ⟨3, 3, 0, 1341378002⟩, ⟨4, 4, 0, 1341378003⟩,
   ⟨5, 5, 0, 1341378004⟩, ⟨6, 6, 0, 1341378005⟩, ⟨7, 7, 0, 1341378006⟩, ⟨8, 8, 0, 1341378007⟩,
   ⟨9, 9, 0, 1341378008⟩, ⟨10, 10, 0, 1341378009⟩, ⟨11, 11, 0, 1341378010⟩, ⟨12, 12, 0, 1341378011⟩,
   ⟨13, 13, 0, 1341378012⟩, ⟨14, 14, 0, 1341378013⟩, ⟨15, 15, 0, 1341378014⟩, ⟨16, 16, 0, 1341378015⟩]

def forkVersion (heights : List HardforkT) (n : ℕ) : UInt8 := (heights[n]?.map HardforkT.version).getD 0

def forkHeight (heights : List HardforkT) (n : ℕ) : ℕ := (heights[n]?.map HardforkT.height).getD 0

def getBlockVote (b : BlockHeader) : UInt8 := if b.minorVersion = 0 then 1 else b.minorVersion

/-- The versions that were stored for heights above the top stay when blocks are popped. -/
structure ForkDb where
  blocks : List BlockHeader
  hardForkVersions : ℕ → Option UInt8

def ForkDb.height (db : ForkDb) : ℕ := db.blocks.length

structure HardFork where
  db : ForkDb
  windowSize : ℕ
  windowSize_pos : 0 < windowSize
  defaultThresholdPercent : UInt8
  originalVersion : UInt8
  heights : List HardforkT
  versions : List UInt8
  lastVersions : UInt8 → UInt32
  currentForkIndex : ℕ

namespace HardFork

variable (hf : HardFork)

def addFork (fork : HardforkT) : Option HardFork :=
  if fork.version = 0 then none
  else if hf.heights.getLast?.any fun last =>
      fork.version ≤ last.version || fork.height ≤ last.height || fork.time ≤ last.time then none
  else if fork.threshold > 100 then none
  else some { hf with heights := hf.heights ++ [fork] }

def forkThreshold (n : ℕ) : UInt32 :=
  UInt32.ofNat ((hf.windowSize * ((hf.heights[n]?.map HardforkT.threshold).getD 0).toNat + 99) / 100)

def getEffectiveVersion (votingVersion : UInt8) : UInt8 :=
  match hf.heights.getLast? with
  | none => votingVersion
  | some last => if votingVersion > last.version then last.version else votingVersion

def doCheck (blockVersion votingVersion : UInt8) : Bool :=
  blockVersion = forkVersion hf.heights hf.currentForkIndex && votingVersion ≥ forkVersion hf.heights hf.currentForkIndex

def check (b : BlockHeader) : Bool := hf.doCheck b.majorVersion (getBlockVote b)

def votedForkIndex (height : ℕ) : ℕ → UInt32 → ℕ
  | 0, _ => hf.currentForkIndex
  | n + 1, votes =>
    let votes := votes + hf.lastVersions (forkVersion hf.heights n)
    if height ≥ forkHeight hf.heights n ∧ votes ≥ hf.forkThreshold n then n else votedForkIndex height n votes

def getVotedForkIndex (height : ℕ) : ℕ := hf.votedForkIndex height hf.heights.length 0

def setForkIndex (n : ℕ) : HardFork := { hf with currentForkIndex := n }

def raise (height : ℕ) : HardFork :=
  let voted := hf.getVotedForkIndex height % 256
  if voted > hf.currentForkIndex then hf.setForkIndex voted else hf

def pushVersion (v : UInt8) : HardFork :=
  { hf with versions := hf.versions ++ [v], lastVersions := Function.update hf.lastVersions v (hf.lastVersions v + 1) }

def makeRoom (windowSize : ℕ) : List UInt8 → (UInt8 → UInt32) → List UInt8 × (UInt8 → UInt32)
  | [], last => ([], last)
  | old :: rest, last =>
    if (old :: rest).length ≥ windowSize then makeRoom windowSize rest (Function.update last old (last old - 1))
    else (old :: rest, last)

def storeVersion (height : ℕ) : HardFork :=
  { hf with
    db.hardForkVersions :=
      Function.update hf.db.hardForkVersions height (some (forkVersion hf.heights hf.currentForkIndex)) }

def recordVote (votingVersion : UInt8) : HardFork :=
  let room := makeRoom hf.windowSize hf.versions hf.lastVersions
  { hf with versions := room.1, lastVersions := room.2 }.pushVersion (hf.getEffectiveVersion votingVersion)

def add (blockVersion votingVersion : UInt8) (height : ℕ) : HardFork × Bool :=
  if !hf.doCheck blockVersion votingVersion then (hf, false)
  else (((hf.storeVersion height).recordVote votingVersion).raise (height + 1), true)

def addHeader (b : BlockHeader) (height : ℕ) : HardFork × Bool := hf.add b.majorVersion (getBlockVote b) height

def clearVotes : HardFork := { hf with versions := [], lastVersions := fun _ => 0 }

def pushVotes (blocks : List BlockHeader) : HardFork :=
  blocks.foldl (fun hf b => hf.pushVersion (hf.getEffectiveVersion (getBlockVote b))) hf

def seekVersion (version : UInt8) : List HardforkT → ℕ
  | [] => 0
  | [_] => 0
  | fork :: next :: rest => if fork.version = version then 0 else seekVersion version (next :: rest) + 1

def rescanFromBlockHeight (height : ℕ) : Option (HardFork × Bool) :=
  if height ≥ hf.db.height then some (hf, false)
  else do
    let hf := hf.clearVotes.pushVotes (hf.db.blocks.drop height)
    let lastv ← hf.db.hardForkVersions (hf.db.height - 1)
    pure ((hf.setForkIndex (seekVersion lastv hf.heights)).raise hf.db.height, true)

def rescanFromChainHeight (height : ℕ) : Option (HardFork × Bool) :=
  if height = 0 then some (hf, false) else hf.rescanFromBlockHeight (height - 1)

def withDefault : HardFork :=
  if hf.heights = [] then { hf with heights := [⟨hf.originalVersion, 0, 0, 0⟩] } else hf

def init : Option HardFork :=
  let height := if hf.db.height > hf.windowSize then hf.db.height - (hf.windowSize - 1) else 1
  ((hf.withDefault.clearVotes.setForkIndex 0).rescanFromChainHeight height).map Prod.fst

def lowerTo (heights : List HardforkT) (version : UInt8) : ℕ → ℕ
  | 0 => 0
  | n + 1 => if forkVersion heights (n + 1) > version then lowerTo heights version n else n + 1

def addHeaders : ℕ → List BlockHeader → HardFork → HardFork
  | _, [], hf => hf
  | h, b :: rest, hf => addHeaders (h + 1) rest (hf.addHeader b h).1

def startVersion (height : ℕ) : Option UInt8 :=
  if height = 0 then some hf.originalVersion else hf.db.hardForkVersions height

def rewind (height : ℕ) (version : UInt8) : HardFork :=
  let rescanHeight := if height ≥ hf.windowSize - 1 then height - (hf.windowSize - 1) else 0
  let lowered := hf.clearVotes.setForkIndex (lowerTo hf.heights version hf.currentForkIndex)
  (lowered.pushVotes ((hf.db.blocks.take (height + 1)).drop rescanHeight)).raise (height + 1)

def reorganizeFromBlockHeight (height : ℕ) : Option (HardFork × Bool) :=
  if height ≥ hf.db.height then some (hf, false)
  else (hf.startVersion height).map fun version =>
    (addHeaders (height + 1) (hf.db.blocks.drop (height + 1)) (hf.rewind height version), true)

def reorganizeFromChainHeight (height : ℕ) : Option (HardFork × Bool) :=
  if height = 0 then some (hf, false) else hf.reorganizeFromBlockHeight (height - 1)

def popVersions : ℕ → HardFork → Option HardFork
  | 0, hf => some hf
  | n + 1, hf => do
    let version ← hf.versions.getLast?
    let hf := { hf with
      versions := hf.versions.dropLast
      lastVersions := Function.update hf.lastVersions version (hf.lastVersions version - 1) }
    let version ← hf.db.hardForkVersions (hf.db.height + n)
    popVersions n { hf with
      versions := version :: hf.versions
      lastVersions := Function.update hf.lastVersions version (hf.lastVersions version + 1) }

def highestFork (heights : List HardforkT) (height : ℕ) : ℕ → ℕ
  | 0 => 0
  | n + 1 => if height ≥ forkHeight heights (n + 1) then n + 1 else highestFork heights height n

def onBlockPopped (nblocks : ℕ) : Option HardFork :=
  if nblocks = 0 then none
  else (popVersions nblocks hf).map fun hf =>
    hf.setForkIndex (highestFork hf.heights hf.db.height (hf.heights.length - 1))

def withBlocks (blocks : List BlockHeader) : HardFork := { hf with db.blocks := blocks }

def getCurrentVersion : UInt8 := forkVersion hf.heights hf.currentForkIndex

def idealVersion (height : ℕ) : ℕ → UInt8
  | 0 => hf.originalVersion
  | n + 1 => if height ≥ forkHeight hf.heights (n + 1) then forkVersion hf.heights (n + 1) else idealVersion height n

def getIdealVersion (height : ℕ) : UInt8 := hf.idealVersion height (hf.heights.length - 1)

end HardFork

inductive ForkOp
  | addBlock (b : BlockHeader)
  | pop (nblocks : ℕ)
  | reorganizeFromChainHeight (height : ℕ)
  | init

namespace HardFork

def step (hf : HardFork) : ForkOp → Option HardFork
  | .addBlock b =>
    if hf.check b then some ((hf.withBlocks (hf.db.blocks ++ [b])).addHeader b hf.db.height).1 else some hf
  | .pop nblocks =>
    if 0 < nblocks ∧ nblocks < hf.db.height then
      (hf.withBlocks (hf.db.blocks.take (hf.db.height - nblocks))).onBlockPopped nblocks
    else some hf
  | .reorganizeFromChainHeight height => (hf.reorganizeFromChainHeight height).map Prod.fst
  | .init => hf.init

def run : HardFork → List ForkOp → Option HardFork
  | hf, [] => some hf
  | hf, op :: ops => (hf.step op).bind fun hf => run hf ops

def addForks : HardFork → List HardforkT → Option HardFork
  | hf, [] => some hf
  | hf, fork :: forks => (hf.addFork fork).bind fun hf => addForks hf forks

end HardFork

end Velkavo.Cryptonote
