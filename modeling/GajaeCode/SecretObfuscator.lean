import GajaeCode.InsertionMap
import GajaeCode.JsString
import GajaeCode.Marking
import Mathlib.Data.List.Sort

/-! # The secret obfuscator

`packages/coding-agent/src/secrets/obfuscator.ts`.  Secrets in outbound text are replaced by
placeholders `#HASH#`, and placeholders in what comes back by the secrets.  Plain secrets are
known from the start; a regular expression discovers more in the texts it is run on, and these
are remembered.

Hash functions and the compiler of the regular expressions of the configuration are
parameters.
-/
namespace GajaeCode
open JsString Marking

inductive SecretType where
  | plain | regex
  deriving DecidableEq

inductive SecretMode where
  | obfuscate | replace
  deriving DecidableEq

structure SecretEntry where
  type : SecretType
  content : JsString
  mode : Option SecretMode
  replacement : Option JsString
  flags : Option JsString

/-- `entry.mode ?? "obfuscate"` -/
def SecretEntry.modeOf (entry : SecretEntry) : SecretMode := entry.mode.getD .obfuscate

/-- What the obfuscator takes from its runtime. -/
structure SecretRuntime where
  /-- `Bun.hash.xxHash32` of a text and a seed. -/
  xxHash32 : JsString → Nat → Nat
  /-- `Bun.hash` -/
  hash : JsString → Nat
  /-- `compileSecretRegex` of a pattern and flags, unless it throws: for a text, what
  `match[0]` is in one `exec` after the other, from `lastIndex` 0 on. -/
  compileSecretRegex : JsString → Option JsString → Option (JsString → List JsString)

namespace SecretObfuscator

def REPLACEMENT_CHARS : JsString :=
  js "ABCDEFGHIJKLMNOPQRSTUVWXYZabcdefghijkl" ++ js "mnopqrstuvwxyz0123456789"

/-- The loop of `generateDeterministicReplacement`. -/
def replacementChars : (count i h : Nat) → JsString
  | 0, _, _ => []
  | count + 1, i, h =>
    let h := h ^^^ ((i + 1) * 0x9e3779b97f4a7c15)
    REPLACEMENT_CHARS.getD (h % REPLACEMENT_CHARS.length) 0 :: replacementChars count (i + 1) h

def generateDeterministicReplacement (runtime : SecretRuntime) (secret : JsString) : JsString :=
  replacementChars secret.length 0 (runtime.hash secret)

def HASH_CHARS : JsString := js "ABCDEFGHIJKLMNOPQRSTUVWXYZ0123456789"

def HASH_LEN : Nat := 4

/-- The loop of `buildPlaceholder`. -/
def hashChars : (count v : Nat) → JsString
  | 0, _ => []
  | count + 1, v =>
    HASH_CHARS.getD (v % HASH_CHARS.length) 0 :: hashChars count (v / HASH_CHARS.length)

def buildPlaceholder (runtime : SecretRuntime) (index : Nat) : JsString :=
  js "#" ++ hashChars HASH_LEN (runtime.xxHash32 (ofNat index) 0x53454352) ++ js "#"

/-- `[A-Z0-9]` -/
def isHashChar (u : CodeUnit) : Bool := (0x41 ≤ u && u ≤ 0x5a) || (0x30 ≤ u && u ≤ 0x39)

/-- `PLACEHOLDER_RE` -/
def placeholderStyle : MarkStyle CodeUnit where
  fence := 0x23
  width := 4
  isTag := isHashChar
  fence_not_tag := rfl

structure RegexEntry where
  exec : JsString → List JsString
  mode : SecretMode
  replacement : Option JsString

structure SecretMapping where
  secret : JsString
  placeholder : JsString

structure SortedMapping where
  secret : JsString
  index : Nat
  placeholder : JsString

/-- A plain secret with what it is replaced by. -/
structure PlainMapping where
  secret : JsString
  replacement : JsString

end SecretObfuscator
open SecretObfuscator

structure SecretObfuscator where
  plainMappings : InsertionMap JsString Nat
  regexEntries : List RegexEntry
  obfuscateMappings : InsertionMap Nat SecretMapping
  replaceMappings : InsertionMap JsString JsString
  sortedReplaceMappings : List PlainMapping
  sortedObfuscateMappings : List SortedMapping
  obfuscateIndexBySecret : InsertionMap JsString Nat
  deobfuscateMap : InsertionMap JsString JsString
  /-- The alternatives of the combined regular expression. -/
  combinedPlainRegex : Option (List JsString)
  combinedPlainReplacementBySecret : InsertionMap JsString JsString
  combinedPlainRegexDirty : Bool
  useSequentialPlainReplacement : Bool
  nextIndex : Nat
  hasAny : Bool

namespace SecretObfuscator

def initial : SecretObfuscator where
  plainMappings := .empty
  regexEntries := []
  obfuscateMappings := .empty
  replaceMappings := .empty
  sortedReplaceMappings := []
  sortedObfuscateMappings := []
  obfuscateIndexBySecret := .empty
  deobfuscateMap := .empty
  combinedPlainRegex := none
  combinedPlainReplacementBySecret := .empty
  combinedPlainRegexDirty := true
  useSequentialPlainReplacement := false
  nextIndex := 0
  hasAny := false

/-- What the constructor does for one entry; `nextIndex` is its `index`. -/
def addEntry (runtime : SecretRuntime) (o : SecretObfuscator) (entry : SecretEntry) :
    SecretObfuscator :=
  match entry.type, entry.modeOf with
  | .plain, .obfuscate =>
    let placeholder := buildPlaceholder runtime o.nextIndex
    { o with
      plainMappings := o.plainMappings.set entry.content o.nextIndex
      obfuscateMappings := o.obfuscateMappings.set o.nextIndex ⟨entry.content, placeholder⟩
      deobfuscateMap := o.deobfuscateMap.set placeholder entry.content
      obfuscateIndexBySecret := o.obfuscateIndexBySecret.set entry.content o.nextIndex
      nextIndex := o.nextIndex + 1 }
  | .plain, .replace =>
    let replacement :=
      entry.replacement.getD (generateDeterministicReplacement runtime entry.content)
    { o with replaceMappings := o.replaceMappings.set entry.content replacement }
  | .regex, mode =>
    match runtime.compileSecretRegex entry.content entry.flags with
    | none => o
    | some exec => { o with regexEntries := o.regexEntries ++ [⟨exec, mode, entry.replacement⟩] }

/-- `[...entries].sort((a, b) => b[0].length - a[0].length)` -/
def longestFirst {V : Type} (entries : List (JsString × V)) : List (JsString × V) :=
  entries.insertionSort fun a b => b.1.length ≤ a.1.length

def new (runtime : SecretRuntime) (entries : List SecretEntry) : SecretObfuscator :=
  let o := entries.foldl (addEntry runtime) initial
  { o with
    sortedReplaceMappings := (longestFirst o.replaceMappings.entries).map fun e => ⟨e.1, e.2⟩
    sortedObfuscateMappings := (longestFirst o.plainMappings.entries).map fun e =>
      ⟨e.1, e.2, ((o.obfuscateMappings.get e.2).map SecretMapping.placeholder).getD []⟩
    hasAny := entries ≠ [] }

/-- `replaceAll`, by `text.split(search).join(replacement)`. -/
def replaceAll (text search replacement : JsString) : JsString :=
  if search = [] ∨ ¬ search <:+: text then text else replaceWord search replacement text

variable (o : SecretObfuscator)

/-- The mappings of `#ensureCombinedPlainRegex`. -/
def plainReplacements : List PlainMapping :=
  o.sortedReplaceMappings ++ o.sortedObfuscateMappings.map fun m => ⟨m.secret, m.placeholder⟩

/-- A replacement has a secret in it, or one secret is in another. -/
def needsSequence (mappings : List PlainMapping) : Bool :=
  mappings.zipIdx.any fun (mapping, index) =>
    mappings.zipIdx.any fun (other, otherIndex) =>
      other.secret ≠ [] ∧ (other.secret <:+: mapping.replacement ∨
        index ≠ otherIndex ∧ (other.secret <:+: mapping.secret ∨ mapping.secret <:+: other.secret))

def setUnlessKnown (m : InsertionMap JsString JsString) (mapping : PlainMapping) :
    InsertionMap JsString JsString :=
  if (m.get mapping.secret).isSome then m else m.set mapping.secret mapping.replacement

/-- `#ensureCombinedPlainRegex`, where it is dirty. -/
def combine : SecretObfuscator :=
  let mappings := o.plainReplacements
  { o with
    combinedPlainRegexDirty := false
    useSequentialPlainReplacement := needsSequence mappings
    combinedPlainReplacementBySecret := mappings.foldl setUnlessKnown .empty
    combinedPlainRegex := if mappings = [] then none else some (mappings.map (·.secret)) }

def ensureCombinedPlainRegex : SecretObfuscator :=
  if o.combinedPlainRegexDirty then o.combine else o

def obfuscatePlainMappingsSequential (text : JsString) : JsString :=
  let result := o.sortedReplaceMappings.foldl
    (fun result m => replaceAll result m.secret m.replacement) text
  o.sortedObfuscateMappings.foldl (fun result m => replaceAll result m.secret m.placeholder) result

/-- `text.replace(this.#combinedPlainRegex, ...)`: the alternatives of the expression are
escaped secrets. -/
def replaceCombined (secrets : List JsString) (text : JsString) : JsString :=
  replace (firstOf secrets) (fun word => (o.combinedPlainReplacementBySecret.get word).getD word)
    text

def obfuscatePlainMappings (text : JsString) : SecretObfuscator × JsString :=
  let o := o.ensureCombinedPlainRegex
  if o.useSequentialPlainReplacement then (o, o.obfuscatePlainMappingsSequential text)
  else
    match o.combinedPlainRegex with
    | none => (o, text)
    | some secrets => (o, o.replaceCombined secrets text)

/-- The loop of `#insertSortedObfuscateMapping`: the place between `lo` and `hi`. -/
def insertionPlace (mappings : List SortedMapping) (length : Nat) :
    (fuel lo hi : Nat) → Nat
  | 0, lo, _ => lo
  | fuel + 1, lo, hi =>
    if lo < hi then
      let mid := (lo + hi) / 2
      if ((mappings[mid]?.map fun m => m.secret.length).getD 0) < length then
        insertionPlace mappings length fuel lo mid
      else insertionPlace mappings length fuel (mid + 1) hi
    else lo

def insertSortedObfuscateMapping (mappings : List SortedMapping) (mapping : SortedMapping) :
    List SortedMapping :=
  let place := insertionPlace mappings mapping.secret.length mappings.length 0 mappings.length
  mappings.insertIdx place mapping

/-- The placeholder of a match, with an index of its own unless it is known. -/
def placeholderFor (runtime : SecretRuntime) (o : SecretObfuscator) (matchValue : JsString) :
    SecretObfuscator × JsString :=
  match o.obfuscateIndexBySecret.get matchValue with
  | some index =>
    (o, ((o.obfuscateMappings.get index).map SecretMapping.placeholder).getD [])
  | none =>
    let placeholder := buildPlaceholder runtime o.nextIndex
    ({ o with
      nextIndex := o.nextIndex + 1
      obfuscateMappings := o.obfuscateMappings.set o.nextIndex ⟨matchValue, placeholder⟩
      deobfuscateMap := o.deobfuscateMap.set placeholder matchValue
      obfuscateIndexBySecret := o.obfuscateIndexBySecret.set matchValue o.nextIndex
      sortedObfuscateMappings := insertSortedObfuscateMapping o.sortedObfuscateMappings
        ⟨matchValue, o.nextIndex, placeholder⟩
      combinedPlainRegexDirty := true }, placeholder)

def replaceMatch (runtime : SecretRuntime) (entry : RegexEntry)
    (st : SecretObfuscator × JsString) (matchValue : JsString) : SecretObfuscator × JsString :=
  match entry.mode with
  | .replace =>
    let replacement :=
      entry.replacement.getD (generateDeterministicReplacement runtime matchValue)
    (st.1, replaceAll st.2 matchValue replacement)
  | .obfuscate =>
    let found := placeholderFor runtime st.1 matchValue
    (found.1, replaceAll st.2 matchValue found.2)

/-- The set of the matches, in the order they are found. -/
def matchesOf (entry : RegexEntry) (text : JsString) : List JsString :=
  firsts ((entry.exec text).filter fun m => m ≠ [])

def processEntry (runtime : SecretRuntime) (st : SecretObfuscator × JsString)
    (entry : RegexEntry) : SecretObfuscator × JsString :=
  (matchesOf entry st.2).foldl (replaceMatch runtime entry) st

def obfuscate (runtime : SecretRuntime) (o : SecretObfuscator) (text : JsString) :
    SecretObfuscator × JsString :=
  if ¬ o.hasAny then (o, text)
  else o.regexEntries.foldl (processEntry runtime) (o.obfuscatePlainMappings text)

def deobfuscate (text : JsString) : JsString :=
  if ¬ o.hasAny ∨ 0x23 ∉ text then text
  else replace placeholderStyle.find (fun m => (o.deobfuscateMap.get m).getD m) text

/-- A block of a message: text, or one of the other kinds. -/
inductive ContentBlock (B : Type) where
  | text (text : JsString) (textSignature : Option JsString)
  | other (block : B)

inductive MessageContent (B : Type) where
  | string (text : JsString)
  | blocks (blocks : List (ContentBlock B))

/-- A message: its content and the rest of its fields. -/
structure Message (B M : Type) where
  content : MessageContent B
  fields : M

variable {B M : Type}

def obfuscateBlock (runtime : SecretRuntime) (o : SecretObfuscator) :
    ContentBlock B → SecretObfuscator × ContentBlock B
  | .text text signature =>
    let obfuscated := o.obfuscate runtime text
    (obfuscated.1, .text obfuscated.2 signature)
  | .other block => (o, .other block)

/-- The `map` over the blocks of a message. -/
def obfuscateBlocks (runtime : SecretRuntime) :
    SecretObfuscator → List (ContentBlock B) → SecretObfuscator × List (ContentBlock B)
  | o, [] => (o, [])
  | o, block :: blocks =>
    let obfuscated := obfuscateBlock runtime o block
    let rest := obfuscateBlocks runtime obfuscated.1 blocks
    (rest.1, obfuscated.2 :: rest.2)

/-- A message whose content is not a list of blocks is returned as it is. -/
def obfuscateMessage (runtime : SecretRuntime) (o : SecretObfuscator) (msg : Message B M) :
    SecretObfuscator × Message B M :=
  match msg.content with
  | .string _ => (o, msg)
  | .blocks blocks =>
    let obfuscated := obfuscateBlocks runtime o blocks
    (obfuscated.1, { msg with content := .blocks obfuscated.2 })

def obfuscateMessages (runtime : SecretRuntime) :
    SecretObfuscator → List (Message B M) → SecretObfuscator × List (Message B M)
  | o, [] => (o, [])
  | o, msg :: messages =>
    let obfuscated := obfuscateMessage runtime o msg
    let rest := obfuscateMessages runtime obfuscated.1 messages
    (rest.1, obfuscated.2 :: rest.2)

end SecretObfuscator
end GajaeCode
