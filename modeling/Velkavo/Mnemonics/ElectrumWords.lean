import Velkavo.ByteCodec.Blocks
import Velkavo.Effects.Checks
import Velkavo.Mnemonics.Language

namespace Velkavo.Mnemonics

open ByteCodec

inductive Fault
  | invalidUtf8
  | wordNotFound
  | divisionByZero
  | outOfRange
  | endless
  deriving DecidableEq, Repr

def splitLoop : Bool → List Bytes → Bytes → List Bytes
  | _, fields, [] => fields
  | spacePrev, fields, c :: s =>
    if isSpace c then splitLoop true fields s
    else if spacePrev then splitLoop false (fields ++ [[c]]) s
    else splitLoop false (fields.dropLast ++ [fields.getLast?.getD [] ++ [c]]) s

def split (s : Bytes) : List Bytes := splitLoop true [] s

variable {lib : Library}

def canonicalKey (lib : Library) (word : Bytes) : Except Fault Bytes :=
  match lib.canonical word with
  | none => .error .invalidUtf8
  | some key => .ok key

namespace Language

variable (language : Language lib)

def matchWord (hasChecksum : Bool) (word : Bytes) : Except Fault (Option ℕ) :=
  if hasChecksum then do
    let key ← canonicalKey lib (utf8Prefix language.uniquePrefixLength word)
    pure ((language.findTrimmed key).map Prod.snd)
  else do
    let key ← canonicalKey lib word
    pure (language.findWord key)

def matchWords (hasChecksum : Bool) : List Bytes → Except Fault (Option (List ℕ))
  | [] => pure (some [])
  | word :: seed => do
    match ← language.matchWord hasChecksum word with
    | none => pure none
    | some i => do
      let indices ← matchWords hasChecksum seed
      pure (indices.map (i :: ·))

def trimmedWords : List Bytes → Except Fault Bytes
  | [] => pure []
  | word :: wordList => do
    let key ← canonicalKey lib (utf8Prefix language.uniquePrefixLength word)
    match language.findTrimmed key with
    | none => throw .wordNotFound
    | some (first, _) => do
      let rest ← trimmedWords wordList
      pure (first ++ rest)

def createChecksumIndex (wordList : List Bytes) : Except Fault ℕ := do
  let trimmed ← language.trimmedWords wordList
  if wordList.length = 0 then throw .divisionByZero else pure ((lib.crc32 trimmed).toNat % wordList.length)

def checksumTest (seed : List Bytes) : Except Fault Bool :=
  match seed.getLast? with
  | none => pure false
  | some lastWord => do
    let idx ← language.createChecksumIndex seed.dropLast
    match seed.dropLast[idx]? with
    | none => throw .outOfRange
    | some checksum => do
      let trimmedChecksum ← canonicalKey lib (trim language.uniquePrefixLength checksum)
      let trimmedLastWord ← canonicalKey lib (trim language.uniquePrefixLength lastWord)
      pure (decide (trimmedChecksum = trimmedLastWord))

end Language

/-- The fallback is the last language that has all the words while the checksum is wrong; no places are kept for it. -/
def findSeedLanguage (seed : List Bytes) (hasChecksum : Bool) :
    List (Language lib) → Option (Language lib) → Except Fault (Option (Language lib × List ℕ))
  | [], fallback => pure (fallback.map (·, []))
  | language :: rest, fallback => do
    match ← language.matchWords hasChecksum seed with
    | none => findSeedLanguage seed hasChecksum rest fallback
    | some matchedIndices =>
      if hasChecksum then do
        if ← language.checksumTest seed then pure (some (language, matchedIndices))
        else findSeedLanguage seed hasChecksum rest (some language)
      else pure (some (language, matchedIndices))

def decodeTriple (w₁ w₂ w₃ : ℕ) : Option ℕ :=
  let w₀ := (w₁ + nwords * ((nwords - w₁ + w₂) % nwords) + nwords * nwords * ((nwords - w₂ + w₃) % nwords)) % 2 ^ 32
  if w₀ % nwords = w₁ then some w₀ else none

def encodeTriple (w₀ : ℕ) : List ℕ :=
  let w₁ := w₀ % nwords
  let w₂ := (w₀ / nwords + w₁) % nwords
  [w₁, w₂, (w₀ / nwords / nwords + w₂) % nwords]

def appendGroups : ℕ → List ℕ → Bytes → Except Fault (Option Bytes)
  | 0, _, dst => pure (some dst)
  | groups + 1, w₁ :: w₂ :: w₃ :: matchedIndices, dst =>
    match decodeTriple w₁ w₂ w₃ with
    | none => pure none
    | some w₀ => appendGroups groups matchedIndices (dst ++ littleEndian 4 w₀)
  | _ + 1, _, _ => throw .outOfRange

/-- The counter has 32 bits, so with as many groups it starts over. -/
def decodeGroups (groups : ℕ) (matchedIndices : List ℕ) (dst : Bytes) : Except Fault (Option Bytes) :=
  if groups < 2 ^ 32 then appendGroups groups matchedIndices dst
  else do
    match ← appendGroups (2 ^ 32) matchedIndices dst with
    | none => pure none
    | some _ => throw .endless

def expectedWords (len : ℕ) : ℕ := len * 8 * 3 % 2 ^ 64 / 32

def expectedForDuplicate (len : ℕ) : ℕ := len * 3 % 2 ^ 64 / 32

def restoreData (len : ℕ) (duplicate : Bool) (words : ℕ) (matchedIndices : List ℕ) (dst : Bytes) :
    Except Fault (Option Bytes) := do
  match ← decodeGroups (words / 3) matchedIndices dst with
  | none => pure none
  | some dst =>
    if 0 < len ∧ duplicate = true ∧ words = expectedForDuplicate len / 2 then pure (some (dst ++ dst)) else pure (some dst)

def hasChecksum (len words : ℕ) : Bool := len = 0 ∨ words = expectedWords len + 1

def wordsToBytes (languages : List (Language lib)) (words dst : Bytes) (len : ℕ) (duplicate : Bool) :
    Except Fault (Option (Bytes × Language lib)) :=
  let seed := split words
  let expected := expectedWords len
  if len % 4 ≠ 0 then pure none
  else if len ≠ 0 ∧ seed.length ≠ expected / 2 ∧ seed.length ≠ expected ∧ seed.length ≠ expected + 1 then pure none
  else do
    match ← findSeedLanguage seed (hasChecksum len seed.length) languages none with
    | none => pure none
    | some (language, matchedIndices) =>
      if hasChecksum len seed.length then do
        if ← language.checksumTest seed then
          let data ← restoreData len duplicate (seed.length - 1) matchedIndices dst
          pure (data.map (·, language))
        else pure none
      else do
        let data ← restoreData len duplicate seed.length matchedIndices dst
        pure (data.map (·, language))

def selectLanguage (languages : List (Language lib)) (languageName : Bytes) : Option (Language lib) :=
  (languages.filter fun l => decide (languageName = l.languageName ∨ languageName = l.englishLanguageName)).getLast?

namespace Language

variable (language : Language lib)

def wordAt (i : ℕ) : Bytes := language.wordList.getD i []

def wordsStore (src : Bytes) : List Bytes :=
  (chunks 4 src).flatMap fun chunk => (encodeTriple (ofLittleEndian chunk)).map language.wordAt

end Language

def bytesToWords (languages : List (Language lib)) (src words languageName : Bytes) : Except Fault (Option Bytes) :=
  if src.length % 4 ≠ 0 ∨ src.length = 0 then pure none
  else
    match selectLanguage languages languageName with
    | none => pure none
    | some language =>
      if 2 ^ 32 ≤ src.length / 4 then throw .endless
      else do
        let wordsStore := language.wordsStore src
        let idx ← language.createChecksumIndex wordsStore
        match wordsStore[idx]? with
        | none => throw .outOfRange
        | some checksum => pure (some (words ++ wordsStore.flatMap (· ++ [0x20]) ++ checksum))

end Velkavo.Mnemonics
