import Mathlib.Data.List.Sort
import GajaeCode.SequenceSearch

/-! # Placing the hunks of a patch

`computeReplacements` of `edit/modes/patch.ts`.  The hunks are placed one after the
other; the cursor `lineIndex` is where the search for the next one starts.  A line number
in the header moves the cursor for hunks without context lines; for the others it is a
hint, used when the search is ambiguous or finds nothing.

Texts of errors and the similarity in warnings are left out; an error says where it comes
from and what it is about.
-/
namespace GajaeCode.PatchEdit
open JsString List
variable {allowFuzzy : Bool}
variable {i : Nat}

structure DiffHunk where
  changeContext : Option JsString
  oldStartLine : Option Nat
  newStartLine : Option Nat
  hasContextLines : Bool
  oldLines : List JsString
  newLines : List JsString
  isEndOfFile : Bool
  deriving DecidableEq

structure Replacement where
  startIndex : Nat
  oldLen : Nat
  newLines : List JsString
  deriving DecidableEq

/-- `ApplyPatchError`, as `computeReplacements` throws it. -/
inductive PatchError where
  | lineHintOutOfRange (line : Nat)
  | insertionOutOfRange (line fileLength : Nat)
  | ambiguousContext (context : JsString) (count : Nat) (indices : Option (List Nat))
  | contextNotFound (context : JsString)
  | ambiguousText (count : Nat) (indices : Option (List Nat))
  | linesNotFound (oldLines : List JsString)
  | twoOccurrences (first second : Nat)
  | overlappingHunks (prev next : Replacement)
  deriving DecidableEq

inductive VariantKind where
  | trimCommon | dedupeShared | collapseRepeated | singleLine
  deriving DecidableEq

structure HunkVariant where
  oldLines : List JsString
  newLines : List JsString
  kind : VariantKind
  deriving DecidableEq

/-- The number of lines two lists have in common at the front. -/
def commonLength : List JsString → List JsString → Nat
  | a :: as, b :: bs => if a = b then commonLength as bs + 1 else 0
  | _, _ => 0

def trimCommonContext (oldLines newLines : List JsString) : Option HunkVariant :=
  let start := commonLength oldLines newLines
  let tail := commonLength (oldLines.drop start).reverse (newLines.drop start).reverse
  if start = 0 ∧ tail = 0 then none
  else
    let trimmedOld := (oldLines.drop start).take (oldLines.length - tail - start)
    let trimmedNew := (newLines.drop start).take (newLines.length - tail - start)
    if trimmedOld.length = 0 ∧ trimmedNew.length = 0 then none
    else some ⟨trimmedOld, trimmedNew, .trimCommon⟩

/-- The old lines that are also new ones. -/
def sharedLines (oldLines newLines : List JsString) : List JsString :=
  oldLines.filter (fun line => line ∈ newLines)

/-- Shared lines that follow an equal one are left out. -/
def collapseConsecutive (shared : List JsString) : Option JsString → List JsString → List JsString
  | _, [] => []
  | prev, line :: rest =>
      if prev = some line ∧ line ∈ shared then collapseConsecutive shared prev rest
      else line :: collapseConsecutive shared (some line) rest

def collapseConsecutiveSharedLines (oldLines newLines : List JsString) : Option HunkVariant :=
  let shared := sharedLines oldLines newLines
  let collapsedOld := collapseConsecutive shared none oldLines
  let collapsedNew := collapseConsecutive shared none newLines
  if collapsedOld.length = oldLines.length ∧ collapsedNew.length = newLines.length then none
  else some ⟨collapsedOld, collapsedNew, .dedupeShared⟩

/-- A block of shared lines at an index that is repeated there: the largest size of two or
more lines. -/
def repeatedBlockSize (shared output : List JsString) (i : Nat) : Option Nat :=
  let sizes := (range ((output.length - i) / 2 + 1)).reverse.filter (fun size => 2 ≤ size)
  sizes.find? fun size =>
    let first := (output.drop i).take size
    first.all (fun line => line ∈ shared) && first = (output.drop (i + size)).take size

/-- The loop of `collapseRepeatedBlocks`.  Every step moves on or shortens the list, so as
many steps as there are lines are enough. -/
def collapseBlocks (shared : List JsString) : Nat → Nat → List JsString → List JsString
  | 0, _, output => output
  | fuel + 1, i, output =>
      if i < output.length then
        match repeatedBlockSize shared output i with
        | some size =>
            collapseBlocks shared fuel i
              (output.take (i + size) ++ output.drop (i + size + size))
        | none => collapseBlocks shared fuel (i + 1) output
      else output

def collapseRepeatedBlocks (oldLines newLines : List JsString) : Option HunkVariant :=
  let shared := sharedLines oldLines newLines
  let collapsedOld := collapseBlocks shared (oldLines.length + 1) 0 oldLines
  let collapsedNew := collapseBlocks shared (newLines.length + 1) 0 newLines
  if collapsedOld.length = oldLines.length ∧ collapsedNew.length = newLines.length then none
  else some ⟨collapsedOld, collapsedNew, .collapseRepeated⟩

def reduceToSingleLineChange (oldLines newLines : List JsString) : Option HunkVariant :=
  if oldLines.length ≠ newLines.length ∨ oldLines.length = 0 then none
  else
    match (oldLines.zip newLines).filter (fun (old, new) => old ≠ new) with
    | [(old, new)] => some ⟨[old], [new], .singleLine⟩
    | _ => none

/-- The key by which `buildFallbackVariants` tells variants apart. -/
def HunkVariant.key (v : HunkVariant) : JsString :=
  unlines v.oldLines ++ js "||" ++ unlines v.newLines

def buildFallbackVariants (hunk : DiffHunk) : List HunkVariant :=
  let trimmed := trimCommonContext hunk.oldLines hunk.newLines
  let trimmedOld := (trimmed.map HunkVariant.oldLines).getD hunk.oldLines
  let trimmedNew := (trimmed.map HunkVariant.newLines).getD hunk.newLines
  let deduped := collapseConsecutiveSharedLines trimmedOld trimmedNew
  let collapsed := collapseRepeatedBlocks
    ((deduped.map HunkVariant.oldLines).getD trimmedOld)
    ((deduped.map HunkVariant.newLines).getD trimmedNew)
  let singleLine := reduceToSingleLineChange trimmedOld trimmedNew
  let variants := trimmed.toList ++ deduped.toList ++ collapsed.toList ++ singleLine.toList
  (variants.filter (fun v => ¬ (v.oldLines.length = 0 ∧ v.newLines.length = 0))).foldl
    (fun kept v => if v.key ∈ kept.map HunkVariant.key then kept else kept ++ [v]) []

def filterFallbackVariants (variants : List HunkVariant) (allowAggressive : Bool) :
    List HunkVariant :=
  if allowAggressive then variants
  else variants.filter (fun v => v.kind ≠ .collapseRepeated ∧ v.kind ≠ .singleLine)

def findContextRelativeMatch (lines : List JsString) (patternLine : JsString)
    (contextIndex : Nat) (preferSecondForwardMatch : Bool) : Option Nat :=
  let isMatch := fun i => JsString.trim (lines.getD i []) = JsString.trim patternLine
  let forwardMatches :=
    (range' (contextIndex + 1) (lines.length - (contextIndex + 1))).filter isMatch
  match forwardMatches with
  | first :: second :: _ => if preferSecondForwardMatch then some second else some first
  | [first] => some first
  | [] => (range contextIndex).reverse.find? isMatch

def ambiguityHintWindow : Nat := 200

def chooseHintedMatch (matchIndices : Option (List Nat)) (hintIndex : Option Nat) (window : Nat) :
    Option Nat :=
  match matchIndices, hintIndex with
  | some indices, some hint =>
      match indices.filter (fun index => max index hint - min index hint ≤ window) with
      | [candidate] => some candidate
      | _ => none
  | _, _ => none

def getHunkHintIndex (hunk : DiffHunk) (currentIndex : Nat) : Option Nat :=
  match hunk.oldStartLine with
  | none => none
  | some line => if currentIndex ≤ line - 1 then some (line - 1) else none

variable (m : Matchers)

/-! ## Change contexts -/

/-- The words of a text: `split(/\s+/)` without empty parts. -/
def words (s : JsString) : List JsString := (s.splitOnP isWhitespace).filter (fun w => w ≠ [])

def joinWords (ws : List JsString) : JsString := [0x0020].intercalate ws

def hasSignatureChars (context : JsString) : Bool :=
  context.any (fun u => u ∈ js "()\x7b\x7d[]")

/-- Found from a hint: at its place only. -/
def SearchResult.settled (r : SearchResult) : SearchResult :=
  { r with matchCount := some 1, matchIndices := r.index.map (fun i => [i]) }

/-- The outer context names several places. -/
def SearchResult.withoutIndex (r : SearchResult) : SearchResult := { r with index := none }

/-- The inner context after the outer one, in both of the two attempts at a context of
several words. -/
def innerContext (lines : List JsString) (inner : JsString) (outerIndex : Nat)
    (allowFuzzy : Bool) : Option SearchResult :=
  let innerResult := m.findContextLine lines inner (outerIndex + 1) allowFuzzy
  if innerResult.index.isSome then
    some (if innerResult.isAmbiguous then innerResult.settled else innerResult)
  else if innerResult.isAmbiguous then
    some { innerResult with matchCount := some 1 }
  else none

/-- A context from nested anchors: every part after the one before it. -/
def findNestedContext (lines : List JsString) (lineHint : Option Nat) (allowFuzzy : Bool) :
    Nat → List JsString → SearchResult
  | _, [] => .notFound
  | currentStart, part :: rest =>
      let result := m.findContextLine lines part currentStart allowFuzzy
      let hintedResult : Option SearchResult :=
        match lineHint with
        | none => none
        | some line =>
          if rest = [] ∧ currentStart ≤ line - 1 then
            let hinted := m.findContextLine lines part (line - 1) allowFuzzy
            if hinted.index.isSome then some hinted.settled else none
          else none
      if result.isAmbiguous then hintedResult.getD result.withoutIndex
      else
        match result.index with
        | none => hintedResult.getD .notFound
        | some index =>
            if rest = [] then result
            else findNestedContext lines lineHint allowFuzzy (index + 1) rest

def findHierarchicalContext (lines : List JsString) (context : JsString) (startFrom : Nat)
    (lineHint : Option Nat) (allowFuzzy : Bool) : SearchResult :=
  if LF ∈ context then
    let parts := ((JsString.lines context).map JsString.trim).filter (fun p => p ≠ [])
    findNestedContext m lines lineHint allowFuzzy startFrom parts
  else
    let spaceParts := words context
    let outer := joinWords spaceParts.dropLast
    let inner := spaceParts.getLastD []
    let outerResult := m.findContextLine lines outer startFrom allowFuzzy
    let fromWords : Option SearchResult :=
      if hasSignatureChars context = false ∧ 2 < spaceParts.length then
        if outerResult.isAmbiguous then some outerResult.withoutIndex
        else outerResult.index.bind fun index => innerContext m lines inner index allowFuzzy
      else none
    match fromWords with
    | some result => result
    | none =>
      let result := m.findContextLine lines context startFrom allowFuzzy
      let hinted : Option SearchResult :=
        match lineHint with
        | none => none
        | some line =>
          if result.index = none ∨ result.isAmbiguous = true then
            let hintedResult := m.findContextLine lines context (line - 1) allowFuzzy
            if hintedResult.index.isSome then some hintedResult.settled else none
          else none
      match hinted with
      | some hintedResult => hintedResult
      | none =>
        if result.isConclusive then result
        else
          let fromStartResult := m.findContextLine lines context 0 allowFuzzy
          if startFrom ≠ 0 ∧ fromStartResult.isConclusive = true then fromStartResult
          else if hasSignatureChars context = false ∧ 1 < spaceParts.length then
            if outerResult.isAmbiguous then outerResult.withoutIndex
            else
              match outerResult.index with
              | none => .notFound
              | some index => (innerContext m lines inner index allowFuzzy).getD result
          else result

/-- `attemptSequenceFallback`: the old lines themselves, or a variant of them. -/
def attemptSequenceFallback (lines : List JsString) (hunk : DiffHunk) (currentIndex : Nat)
    (allowFuzzy allowAggressiveFallbacks : Bool) : Option Nat :=
  if hunk.oldLines.length = 0 then none
  else
    let hint := (getHunkHintIndex hunk currentIndex).or hunk.oldStartLine
    let fallbackResult :=
      findSequenceWithHint m lines hunk.oldLines currentIndex hint false allowFuzzy
    match (if fallbackResult.isUnique then fallbackResult.index else none) with
    | some index =>
        if index + 1 + hunk.oldLines.length ≤ lines.length ∧
          (seekSequence m lines hunk.oldLines (index + 1) false allowFuzzy).index.isSome then none
        else some index
    | none =>
        let variants :=
          filterFallbackVariants (buildFallbackVariants hunk) allowAggressiveFallbacks
        (variants.filter (fun v => v.oldLines ≠ [])).findSome? fun variant =>
          let variantResult :=
            findSequenceWithHint m lines variant.oldLines currentIndex hint false allowFuzzy
          if variantResult.isUnique then variantResult.index else none

/-- `adjustLinesIndentation`, up to the indentation of lines that were not matched exactly
and change more than that. -/
def adjustLinesIndentation (patternLines actualLines newLines : List JsString) :
    List JsString :=
  if patternLines.length = 0 ∨ actualLines.length = 0 ∨ newLines.length = 0 then newLines
  else if patternLines = actualLines then newLines
  else if patternLines.map JsString.trim = newLines.map JsString.trim then newLines
  else m.reindent patternLines actualLines newLines

/-! ## One hunk -/

/-- The variables of `computeReplacements`.  A warning is the index at which a dominant
fuzzy match was taken. -/
structure HunkState where
  replacements : List Replacement
  warnings : List Nat
  lineIndex : Nat
  deriving DecidableEq

/-- Line numbers start at 1. -/
def checkLineHints (hunk : DiffHunk) : Except PatchError Unit :=
  match hunk.oldStartLine, hunk.newStartLine with
  | some 0, _ => .error (.lineHintOutOfRange 0)
  | _, some 0 => .error (.lineHintOutOfRange 0)
  | _, _ => .ok ()

/-- Fallbacks that go further are for hunks that say where they belong. -/
def allowsAggressive (hunk : DiffHunk) : Bool :=
  hunk.changeContext.isSome || hunk.oldStartLine.isSome || hunk.isEndOfFile

/-- The cursor for the hunk, before its context is looked for. -/
def startingIndex (lines : List JsString) (hunk : DiffHunk) (lineIndex : Nat) : Nat :=
  match hunk.oldStartLine with
  | none => lineIndex
  | some line =>
      if hunk.changeContext = none ∧ hunk.hasContextLines = false then
        min (line - 1) (lines.length - 1)
      else lineIndex

/-- The cursor after a context: at its line if the hunk repeats that line, or if the
context names more than one thing. -/
def afterContext (hunk : DiffHunk) (context : JsString) (index : Nat) : Nat :=
  let finalContext := JsString.trim ((JsString.lines context).getLastD [])
  let isHierarchicalContext := decide (LF ∈ context) || decide (2 < (words context).length)
  match hunk.oldLines.head? with
  | none => index + 1
  | some firstOldLine =>
      if JsString.trim firstOldLine = finalContext ∨ isHierarchicalContext = true then index
      else index + 1

/-- Looks for the change context of a hunk: the new cursor, and the context's index. -/
def resolveContext (lines : List JsString) (hunk : DiffHunk) (lineIndex : Nat)
    (allowFuzzy : Bool) : Except PatchError (Nat × Option Nat) :=
  match hunk.changeContext with
  | none => .ok (lineIndex, none)
  | some context =>
    let result :=
      findHierarchicalContext m lines context lineIndex hunk.oldStartLine allowFuzzy
    match (if result.isAmbiguous then none else result.index) with
    | some index => .ok (afterContext hunk context index, some index)
    | none =>
      match attemptSequenceFallback m lines hunk lineIndex allowFuzzy (allowsAggressive hunk) with
      | some fallback => .ok (fallback, result.index)
      | none =>
        if result.isAmbiguous then
          .error (.ambiguousContext context (result.matchCount.getD 0) result.matchIndices)
        else .error (.contextNotFound context)

/-- The place of a hunk that only adds lines. -/
def insertionIndex (lines : List JsString) (hunk : DiffHunk) (lineIndex : Nat) :
    Except PatchError Nat :=
  if hunk.changeContext.isSome then .ok lineIndex
  else
    match hunk.oldStartLine.or hunk.newStartLine with
    | some line =>
        if line < 1 then .error (.lineHintOutOfRange line)
        else if lines.length + 1 < line then .error (.insertionOutOfRange line lines.length)
        else .ok (line - 1)
    | none =>
        if lines.getLast? = some [] then .ok (lines.length - 1) else .ok lines.length

/-- What was searched for, what replaces it, and the outcome. -/
structure Located where
  pattern : List JsString
  newSlice : List JsString
  result : SearchResult

/-- The search for the old lines, and once more without an empty last line. -/
def searchOldLines (lines : List JsString) (hunk : DiffHunk) (lineIndex : Nat)
    (matchHint : Option Nat) (allowFuzzy : Bool) : Located :=
  let searchResult :=
    findSequenceWithHint m lines hunk.oldLines lineIndex matchHint hunk.isEndOfFile allowFuzzy
  if searchResult.index = none ∧ hunk.oldLines.getLast? = some [] then
    let pattern := hunk.oldLines.dropLast
    let newSlice :=
      if hunk.newLines.getLast? = some [] then hunk.newLines.dropLast else hunk.newLines
    ⟨pattern, newSlice,
      findSequenceWithHint m lines pattern lineIndex matchHint hunk.isEndOfFile allowFuzzy⟩
  else ⟨hunk.oldLines, hunk.newLines, searchResult⟩

/-- A variant that is found at one place, if the old lines are not. -/
def tryVariants (lines : List JsString) (hunk : DiffHunk) (variants : List HunkVariant)
    (lineIndex : Nat) (matchHint : Option Nat) (allowFuzzy : Bool) (located : Located) :
    Located :=
  if located.result.index = none ∨ located.result.isAmbiguous = true then
    let found := (variants.filter (fun v => v.oldLines ≠ [])).findSome? fun variant =>
      let variantResult := findSequenceWithHint m lines variant.oldLines lineIndex matchHint
        hunk.isEndOfFile allowFuzzy
      if variantResult.isUnique then
        some (⟨variant.oldLines, variant.newLines, variantResult⟩ : Located)
      else none
    found.getD located
  else located

/-- A change of one line close to the context, if nothing was found. -/
def tryNearContext (lines : List JsString) (hunk : DiffHunk) (variants : List HunkVariant)
    (contextIndex : Option Nat) (located : Located) : Located :=
  match contextIndex with
  | none => located
  | some context =>
    if located.result.index = none then
      let found := variants.findSome? fun variant =>
        match variant.oldLines, variant.newLines with
        | [removedLine], [_] =>
            let hasSharedDuplicate :=
              hunk.newLines.any (fun line => JsString.trim line = JsString.trim removedLine)
            (findContextRelativeMatch lines removedLine context hasSharedDuplicate).map
              fun index => (⟨variant.oldLines, variant.newLines,
                ⟨some index, none, none, none⟩⟩ : Located)
        | _, _ => none
      found.getD located
    else located

/-- A single line that the file has several times: the one at the context. -/
def preferNearContext (lines : List JsString) (hunk : DiffHunk) (contextIndex : Option Nat)
    (located : Located) : Located :=
  match contextIndex, located.result.index, located.pattern with
  | some context, some _, [line] =>
      let trimmed := JsString.trim line
      let occurrenceCount := (lines.filter (fun l => JsString.trim l = trimmed)).length
      if 1 < occurrenceCount then
        let hasSharedDuplicate := hunk.newLines.any (fun l => JsString.trim l = trimmed)
        match findContextRelativeMatch lines line context hasSharedDuplicate with
        | some index => { located with result := ⟨some index, none, none, none⟩ }
        | none => located
      else located
  | _, _, _ => located

/-- Of several matches the one close to the hint, if it is the only one. -/
def settleByHint (hunk : DiffHunk) (matchHint : Option Nat) (located : Located) : Located :=
  if located.result.isAmbiguous then
    let hintIndex := matchHint.or (hunk.oldStartLine.map (fun line => line - 1))
    match chooseHintedMatch located.result.matchIndices hintIndex ambiguityHintWindow with
    | some index =>
        { located with
          result := { located.result with index := some index, matchCount := some 1 } }
    | none => located
  else located

def locateOldLines (lines : List JsString) (hunk : DiffHunk) (lineIndex : Nat)
    (contextIndex : Option Nat) (allowFuzzy : Bool) : Located :=
  let variants := filterFallbackVariants (buildFallbackVariants hunk) (allowsAggressive hunk)
  let matchHint := getHunkHintIndex hunk lineIndex
  let located := searchOldLines m lines hunk lineIndex matchHint allowFuzzy
  let located := tryVariants m lines hunk variants lineIndex matchHint allowFuzzy located
  let located := tryNearContext lines hunk variants contextIndex located
  let located := preferNearContext lines hunk contextIndex located
  settleByHint hunk matchHint located

/-- A second place at which the pattern of a bare hunk is found. -/
def secondOccurrence (lines : List JsString) (hunk : DiffHunk) (pattern : List JsString)
    (found : Nat) (allowFuzzy : Bool) : Option Nat :=
  if hunk.changeContext = none ∧ hunk.hasContextLines = false ∧ hunk.isEndOfFile = false ∧
      hunk.oldStartLine = none then
    (seekSequence m lines pattern (found + 1) false allowFuzzy).index
  else none

/-- The replacement of what was found, unless it changes nothing. -/
def replacementAt (lines : List JsString) (located : Located) (found : Nat) : List Replacement :=
  if located.pattern = located.newSlice then []
  else
    let actualMatchedLines := (lines.drop found).take located.pattern.length
    [⟨found, located.pattern.length,
      adjustLinesIndentation m located.pattern actualMatchedLines located.newSlice⟩]

/-- The warning that a dominant match was taken. -/
def warningAt (located : Located) (found : Nat) : List Nat :=
  if located.result.strategy = some .fuzzyDominant then [found] else []

/-- Places what was located.  A hunk that changes nothing only moves the cursor. -/
def placeHunk (lines : List JsString) (hunk : DiffHunk) (allowFuzzy : Bool) (located : Located)
    (s : HunkState) : Except PatchError HunkState :=
  match located.result.index with
  | none =>
      if located.result.isAmbiguous then
        .error (.ambiguousText (located.result.matchCount.getD 0) located.result.matchIndices)
      else .error (.linesNotFound hunk.oldLines)
  | some found =>
    if located.result.isAmbiguous then
      .error (.ambiguousText (located.result.matchCount.getD 0) located.result.matchIndices)
    else
      match secondOccurrence m lines hunk located.pattern found allowFuzzy with
      | some second => .error (.twoOccurrences found second)
      | none =>
        .ok {
          replacements := s.replacements ++ replacementAt m lines located found
          warnings := s.warnings ++ warningAt located found
          lineIndex := found + located.pattern.length }

/-- The body of the loop of `computeReplacements`. -/
def computeHunk (lines : List JsString) (allowFuzzy : Bool) (s : HunkState) (hunk : DiffHunk) :
    Except PatchError HunkState :=
  match checkLineHints hunk with
  | .error e => .error e
  | .ok () =>
    match resolveContext m lines hunk (startingIndex lines hunk s.lineIndex) allowFuzzy with
    | .error e => .error e
    | .ok (lineIndex, contextIndex) =>
      if hunk.oldLines.length = 0 then
        match insertionIndex lines hunk lineIndex with
        | .error e => .error e
        | .ok insertionIdx =>
            .ok ⟨s.replacements ++ [⟨insertionIdx, 0, hunk.newLines⟩], s.warnings, lineIndex⟩
      else
        placeHunk m lines hunk allowFuzzy
          (locateOldLines m lines hunk lineIndex contextIndex allowFuzzy)
          { s with lineIndex }

/-- The first two neighbours that overlap. -/
def firstOverlap : List Replacement → Option (Replacement × Replacement)
  | prev :: next :: rest =>
      if next.startIndex < prev.startIndex + prev.oldLen then some (prev, next)
      else firstOverlap (next :: rest)
  | _ => none

def computeHunks (lines : List JsString) (allowFuzzy : Bool) (hunks : List DiffHunk)
    (s : HunkState) : Except PatchError HunkState :=
  hunks.foldlM (computeHunk m lines allowFuzzy) s

def computeReplacements (lines : List JsString) (hunks : List DiffHunk) (allowFuzzy : Bool) :
    Except PatchError (List Replacement × List Nat) :=
  match computeHunks m lines allowFuzzy hunks ⟨[], [], 0⟩ with
  | .error e => .error e
  | .ok s =>
    let sorted := s.replacements.insertionSort (fun a b => a.startIndex ≤ b.startIndex)
    match firstOverlap sorted with
    | some (prev, next) => .error (.overlappingHunks prev next)
    | none => .ok (sorted, s.warnings)

variable {hunk : DiffHunk} {s s' : HunkState}

variable {located : Located}

variable {lines : List JsString}

/-- A hunk keeps the replacements of the hunks before it. -/
theorem placeHunk_extends (h : placeHunk m lines hunk allowFuzzy located s = .ok s') :
    s.replacements <+: s'.replacements := by
  unfold placeHunk at h
  split at h
  · split_ifs at h
  · split_ifs at h with hambiguous
    split at h
    · exact absurd h (by simp)
    · obtain rfl := Except.ok.inj h
      exact prefix_append _ _

theorem computeHunk_extends (h : computeHunk m lines allowFuzzy s hunk = .ok s') :
    s.replacements <+: s'.replacements := by
  unfold computeHunk at h
  split at h
  · exact absurd h (by simp)
  · split at h
    · exact absurd h (by simp)
    · split_ifs at h with hempty
      · split at h
        · exact absurd h (by simp)
        · obtain rfl := Except.ok.inj h
          exact prefix_append _ _
      · exact placeHunk_extends m h

theorem computeHunks_cons {hunks : List DiffHunk}
    (h : computeHunks m lines allowFuzzy (hunk :: hunks) s = .ok s') :
    ∃ mid, computeHunk m lines allowFuzzy s hunk = .ok mid ∧
      computeHunks m lines allowFuzzy hunks mid = .ok s' := by
  rw [computeHunks, foldlM_cons] at h
  cases hmid : computeHunk m lines allowFuzzy s hunk with
  | error e =>
    rw [hmid] at h
    exact absurd h (by simp [bind, Except.bind])
  | ok mid =>
    rw [hmid] at h
    exact ⟨mid, rfl, h⟩

theorem computeHunks_extends {hunks : List DiffHunk}
    (h : computeHunks m lines allowFuzzy hunks s = .ok s') :
    s.replacements <+: s'.replacements := by
  induction hunks generalizing s with
  | nil =>
    obtain rfl := Except.ok.inj h
    exact prefix_rfl
  | cons hunk hunks ih =>
    obtain ⟨mid, hmid, hrest⟩ := computeHunks_cons m h
    exact (computeHunk_extends m hmid).trans (ih hrest)

theorem computeHunks_append {before after : List DiffHunk} {mid : HunkState}
    (h : computeHunks m lines allowFuzzy before s = .ok mid) :
    computeHunks m lines allowFuzzy (before ++ after) s =
      computeHunks m lines allowFuzzy after mid := by
  rw [computeHunks, foldlM_append]
  change (computeHunks m lines allowFuzzy before s >>= _) = _
  rw [h]
  rfl

/-- What one hunk adds is among the replacements returned. -/
theorem mem_computeReplacements {before after : List DiffHunk}
    {r : Replacement} (hbefore : computeHunks m lines allowFuzzy before ⟨[], [], 0⟩ = .ok s)
    (hhunk : computeHunk m lines allowFuzzy s hunk = .ok s') (hr : r ∈ s'.replacements)
    {replacements : List Replacement} {warnings : List Nat}
    (h : computeReplacements m lines (before ++ hunk :: after) allowFuzzy = .ok (replacements,
      warnings)) : r ∈ replacements := by
  unfold computeReplacements at h
  rw [computeHunks_append m hbefore] at h
  split at h
  · exact absurd h (by simp)
  · rename_i final hfinal
    obtain ⟨mid, hmid, hrest⟩ := computeHunks_cons m hfinal
    obtain rfl := Except.ok.inj (hhunk.symm.trans hmid)
    have hmem : r ∈ final.replacements := (computeHunks_extends m hrest).subset hr
    simp only at h
    split at h
    · exact absurd h (by simp)
    · obtain ⟨rfl, -⟩ := Prod.mk.inj (Except.ok.inj h)
      exact (mem_insertionSort _).mpr hmem

/-! ## Hinted hunks -/

/-- The hunk goes to an index: a replacement of its old lines there, or, if it changes
nothing, the cursor behind them. -/
def HunkPlacedAt (s : HunkState) (hunk : DiffHunk) (i : Nat)
    (result : Except PatchError HunkState) : Prop :=
  ∃ s', result = .ok s' ∧
    if hunk.oldLines ≠ [] ∧ hunk.oldLines = hunk.newLines then
      s'.replacements = s.replacements ∧ s'.lineIndex = i + hunk.oldLines.length
    else
      s'.replacements = s.replacements ++ [⟨i, hunk.oldLines.length, hunk.newLines⟩]

/-- The hint does not matter: the old lines are found at this index without it. -/
def FoundWithoutHint (lines : List JsString) (hunk : DiffHunk) (allowFuzzy : Bool)
    (cursor i : Nat) : Prop :=
  hunk.oldLines = [] ∨
    if hunk.isEndOfFile = true ∧ MatchesSomehow m lines hunk.oldLines allowFuzzy
        (lines.length - hunk.oldLines.length) then
      i = lines.length - hunk.oldLines.length
    else ∀ j, cursor ≤ j → j < i → ¬ OccursAt lines hunk.oldLines j

/-- Without a change context the hint only counts when the search is in doubt. -/
theorem locateOldLines_of_occurs (allowFuzzy : Bool)
    (hne : hunk.oldLines ≠ []) {cursor : Nat} (hstart : cursor ≤ i)
    (hi : OccursAt lines hunk.oldLines i)
    (hleast : ∀ j, cursor ≤ j → j < i → ¬ OccursAt lines hunk.oldLines j) :
    ∃ result, locateOldLines m lines hunk cursor none allowFuzzy =
        ⟨hunk.oldLines, hunk.newLines, result⟩ ∧
      result.index = some (foundIndex m lines hunk.oldLines hunk.isEndOfFile allowFuzzy i) ∧
      result.isAmbiguous = false ∧ result.strategy ≠ some .fuzzyDominant := by
  obtain ⟨hindex, hambiguous, hstrategy⟩ :=
    (seekSequence_of_occurs m hne hstart hi hleast :
      let result := seekSequence m lines hunk.oldLines cursor hunk.isEndOfFile allowFuzzy
      result.index = some (foundIndex m lines hunk.oldLines hunk.isEndOfFile allowFuzzy i) ∧
        result.isAmbiguous = false ∧ result.strategy ≠ some .fuzzyDominant)
  have hfound : ¬ (seekSequence m lines hunk.oldLines cursor hunk.isEndOfFile allowFuzzy).index =
      none := by
    rw [hindex]
    exact Option.some_ne_none _
  refine ⟨_, ?_, hindex, hambiguous, hstrategy⟩
  have hsearch : searchOldLines m lines hunk cursor (getHunkHintIndex hunk cursor) allowFuzzy =
      ⟨hunk.oldLines, hunk.newLines,
        seekSequence m lines hunk.oldLines cursor hunk.isEndOfFile allowFuzzy⟩ := by
    simp only [searchOldLines, findSequenceWithHint_eq m hindex hambiguous]
    rw [if_neg (fun h => hfound h.1)]
  simp only [locateOldLines, hsearch, tryVariants, tryNearContext, preferNearContext, settleByHint]
  have hsettled : ¬ (seekSequence m lines hunk.oldLines cursor hunk.isEndOfFile
      allowFuzzy).isAmbiguous = true := by
    rw [hambiguous]
    exact Bool.false_ne_true
  rw [if_neg (not_or.mpr ⟨hfound, hsettled⟩), if_neg hsettled]

theorem computeHunk_of_occurs (allowFuzzy : Bool)
    (hcontext : hunk.changeContext = none) (hlines : hunk.hasContextLines = true)
    (hold : hunk.oldStartLine ≠ some 0) (hnew : hunk.newStartLine ≠ some 0)
    (hne : hunk.oldLines ≠ []) (hstart : s.lineIndex ≤ i) (hi : OccursAt lines hunk.oldLines i)
    (hleast : ∀ j, s.lineIndex ≤ j → j < i → ¬ OccursAt lines hunk.oldLines j) :
    ∃ located, located.pattern = hunk.oldLines ∧ located.newSlice = hunk.newLines ∧
      let found := foundIndex m lines hunk.oldLines hunk.isEndOfFile allowFuzzy i
      computeHunk m lines allowFuzzy s hunk = .ok {
        replacements := s.replacements ++ replacementAt m lines located found
        warnings := s.warnings
        lineIndex := found + hunk.oldLines.length } := by
  obtain ⟨result, hlocated, hindex, hambiguous, hstrategy⟩ :=
    locateOldLines_of_occurs m allowFuzzy hne hstart hi hleast
  refine ⟨⟨hunk.oldLines, hunk.newLines, result⟩, rfl, rfl, ?_⟩
  have hhints : checkLineHints hunk = .ok () := by
    unfold checkLineHints
    split
    · exact absurd ‹hunk.oldStartLine = some 0› hold
    · exact absurd ‹hunk.newStartLine = some 0› hnew
    · rfl
  have hstarting : startingIndex lines hunk s.lineIndex = s.lineIndex := by
    unfold startingIndex
    split
    · rfl
    · rw [if_neg (by simp [hlines])]
  have hresolve : resolveContext m lines hunk s.lineIndex allowFuzzy = .ok (s.lineIndex, none) := by
    rw [resolveContext, hcontext]
  have hsecond : secondOccurrence m lines hunk hunk.oldLines
      (foundIndex m lines hunk.oldLines hunk.isEndOfFile allowFuzzy i) allowFuzzy = none := by
    rw [secondOccurrence, if_neg (by simp [hlines])]
  have hwarning : warningAt ⟨hunk.oldLines, hunk.newLines, result⟩
      (foundIndex m lines hunk.oldLines hunk.isEndOfFile allowFuzzy i) = [] := by
    rw [warningAt, if_neg hstrategy]
  simp only [computeHunk, hhints, hstarting, hresolve]
  rw [if_neg (fun h => hne (length_eq_zero_iff.mp h)), hlocated]
  simp only [placeHunk, hindex, hambiguous, Bool.false_eq_true, if_false, hsecond, hwarning,
    append_nil]

theorem replacementAt_of_occurs (h : OccursAt lines located.pattern i) :
    replacementAt m lines located i = if located.pattern = located.newSlice then []
      else [⟨i, located.pattern.length, located.newSlice⟩] := by
  have hindent : adjustLinesIndentation m located.pattern
      ((lines.drop i).take located.pattern.length) located.newSlice = located.newSlice := by
    rw [adjustLinesIndentation, h.2]
    simp
  simp only [replacementAt, hindent]

theorem placed_iff_foundIndex (hcontext : hunk.changeContext = none)
    (hlines : hunk.hasContextLines = true) (hold : hunk.oldStartLine ≠ some 0)
    (hnew : hunk.newStartLine ≠ some 0) (hne : hunk.oldLines ≠ []) {first : Nat}
    (hstart : s.lineIndex ≤ first) (hfirst : OccursAt lines hunk.oldLines first)
    (hleast : ∀ j, s.lineIndex ≤ j → j < first → ¬ OccursAt lines hunk.oldLines j)
    (hi : OccursAt lines hunk.oldLines i) :
    HunkPlacedAt s hunk i (computeHunk m lines allowFuzzy s hunk) ↔
      foundIndex m lines hunk.oldLines hunk.isEndOfFile allowFuzzy first = i := by
  obtain ⟨located, hpattern, hslice, hresult⟩ := computeHunk_of_occurs m allowFuzzy hcontext
    hlines hold hnew hne hstart hfirst hleast
  simp only at hresult
  rw [hresult, HunkPlacedAt]
  constructor
  · rintro ⟨s', hs', hplaced⟩
    obtain rfl := Except.ok.inj hs'
    by_cases hsame : hunk.oldLines = hunk.newLines
    · rw [if_pos ⟨hne, hsame⟩] at hplaced
      have := hplaced.2
      simp only at this
      omega
    · rw [if_neg (fun h => hsame h.2), replacementAt, hpattern, hslice, if_neg hsame] at hplaced
      have hlast := append_cancel_left hplaced
      exact (Replacement.mk.inj (cons.inj hlast).1).1
  · rintro hfound
    refine ⟨_, rfl, ?_⟩
    rw [hfound, replacementAt_of_occurs m (hpattern ▸ hi), hpattern, hslice]
    by_cases hsame : hunk.oldLines = hunk.newLines
    · rw [if_pos ⟨hne, hsame⟩, if_pos hsame]
      exact ⟨append_nil _, rfl⟩
    · rw [if_neg (fun h => hsame h.2), if_neg hsame]

theorem placed_of_no_oldLines {n : Nat}
    (hcontext : hunk.changeContext = none) (hline : hunk.oldStartLine = some n) (hn : 1 ≤ n)
    (hnew : hunk.newStartLine ≠ some 0) (hempty : hunk.oldLines = [])
    (hrange : n - 1 ≤ lines.length) :
    HunkPlacedAt s hunk (n - 1) (computeHunk m lines allowFuzzy s hunk) := by
  have hhints : checkLineHints hunk = .ok () := by
    unfold checkLineHints
    split
    · have : some n = some 0 := hline.symm.trans ‹hunk.oldStartLine = some 0›
      simp at this
      omega
    · exact absurd ‹hunk.newStartLine = some 0› hnew
    · rfl
  have hinsertion : ∀ cursor, insertionIndex lines hunk cursor = .ok (n - 1) := by
    intro cursor
    simp only [insertionIndex, hcontext, hline, Option.isSome_none, Bool.false_eq_true, if_false,
      Option.some_or]
    rw [if_neg (by omega), if_neg (by omega)]
  simp only [computeHunk, hhints, resolveContext, hcontext, hempty, length_nil, if_true,
    hinsertion]
  refine ⟨_, rfl, ?_⟩
  rw [if_neg (fun h => h.1 hempty), hempty]
  rfl

/-- **A line hint decides nothing between exact matches.**  For every file, every state
left by the hunks before and every hunk with context lines, a header `@@ -n,… @@` and no
change context, whose old lines occur at the hinted place, not before the cursor: the
hunk is placed there if and only if the new start line is not 0 and the old lines are
found there without the hint, which for a hunk not at the end of the file means that they
do not occur between the cursor and the hinted place.  Then every result of the whole
computation has the replacement there. -/
theorem computeHunk_placed_at_hint_iff {lines : List JsString} {allowFuzzy : Bool}
    {before : List DiffHunk} {hunk : DiffHunk} {n : Nat} {s : HunkState}
    (hbefore : computeHunks m lines allowFuzzy before ⟨[], [], 0⟩ = .ok s)
    (hcontext : hunk.changeContext = none) (hlines : hunk.hasContextLines = true)
    (hline : hunk.oldStartLine = some n) (hn : 1 ≤ n)
    (hoccurs : OccursAt lines hunk.oldLines (n - 1)) (hcursor : s.lineIndex ≤ n - 1) :
    (HunkPlacedAt s hunk (n - 1) (computeHunk m lines allowFuzzy s hunk) ↔
      hunk.newStartLine ≠ some 0 ∧ FoundWithoutHint m lines hunk allowFuzzy s.lineIndex (n - 1)) ∧
      (HunkPlacedAt s hunk (n - 1) (computeHunk m lines allowFuzzy s hunk) →
        hunk.oldLines ≠ hunk.newLines → ∀ after replacements warnings,
          computeReplacements m lines (before ++ hunk :: after) allowFuzzy =
            .ok (replacements, warnings) →
          ⟨n - 1, hunk.oldLines.length, hunk.newLines⟩ ∈ replacements) := by
  have hold : hunk.oldStartLine ≠ some 0 := by
    rw [hline]
    simp
    omega
  refine ⟨?_, ?_⟩
  · by_cases hnew : hunk.newStartLine = some 0
    · refine iff_of_false ?_ (fun h => h.1 hnew)
      rintro ⟨s', hs', -⟩
      have hhints : checkLineHints hunk = .error (.lineHintOutOfRange 0) := by
        unfold checkLineHints
        split
        · rfl
        · rfl
        · exact absurd hnew ‹_›
      simp only [computeHunk, hhints] at hs'
      exact absurd hs' (by simp)
    · rw [and_iff_right hnew, FoundWithoutHint]
      by_cases hempty : hunk.oldLines = []
      · refine iff_of_true ?_ (.inl hempty)
        have hrange := hoccurs.1
        exact placed_of_no_oldLines m hcontext hline hn hnew hempty (by omega)
      · rw [or_iff_right hempty]
        -- the first occurrence from the cursor on
        classical
        have hsome : ∃ j, s.lineIndex ≤ j ∧ OccursAt lines hunk.oldLines j :=
          ⟨n - 1, hcursor, hoccurs⟩
        obtain ⟨hstart, hfirst⟩ := Nat.find_spec hsome
        have hleast : ∀ j, s.lineIndex ≤ j → j < Nat.find hsome →
            ¬ OccursAt lines hunk.oldLines j := fun j hj hlt h =>
          Nat.find_min hsome hlt ⟨hj, h⟩
        rw [placed_iff_foundIndex m hcontext hlines hold hnew hempty hstart hfirst hleast hoccurs,
          foundIndex]
        split_ifs with hend
        · exact eq_comm
        · constructor
          · rintro heq j hj hlt
            exact hleast j hj (heq ▸ hlt)
          · intro hnone
            apply le_antisymm (Nat.find_min' hsome ⟨hcursor, hoccurs⟩)
            by_contra hlt
            exact hnone _ hstart (Nat.lt_of_not_le hlt) hfirst
  · rintro ⟨s', hs', hplaced⟩ hchanges after replacements warnings hresult
    rw [if_neg (fun h => hchanges h.2)] at hplaced
    apply mem_computeReplacements m hbefore hs' ?_ hresult
    rw [hplaced]
    exact mem_append_right _ mem_cons_self

/-- What the matchers outside the model do with plain ASCII lines: nothing that the exact
passes need. -/
def asciiMatchers : Matchers where
  nfc := fun s => s
  fuzzyPasses := fun _ _ _ _ => .notFound
  findContextLine := fun _ _ _ _ => .notFound
  reindent := fun _ _ newLines => newLines

def repeatedBlocks : List JsString :=
  [js "open", js "work", js "close", js "open", js "work", js "close"]

/-- The hunk `@@ -n,3 +n,3 @@` that changes the middle of a block. -/
def blockHunk (n : Nat) : DiffHunk where
  changeContext := none
  oldStartLine := some n
  newStartLine := some n
  hasContextLines := true
  oldLines := [js "open", js "work", js "close"]
  newLines := [js "open", js "rest", js "close"]
  isEndOfFile := false

theorem computeHunk_placed_at_hint_first : HunkPlacedAt ⟨[], [], 0⟩ (blockHunk 1) 0
      (computeHunk asciiMatchers repeatedBlocks true ⟨[], [], 0⟩ (blockHunk 1)) := by
  have hstart : computeHunks asciiMatchers repeatedBlocks true [] ⟨[], [], 0⟩ =
      .ok ⟨[], [], 0⟩ := rfl
  have hline : (blockHunk 1).oldStartLine = some 1 := rfl
  have h := computeHunk_placed_at_hint_iff asciiMatchers hstart rfl rfl hline le_rfl (by decide)
    le_rfl
  exact h.1.mpr ⟨by decide, .inr (by
    rw [if_neg (fun h => Bool.false_ne_true h.1)]
    intro j _ hj
    exact absurd hj (Nat.not_lt_zero j))⟩

/-- **A hint at the second block is not**: the first one is changed. -/
theorem hint_at_second_block_ignored : OccursAt repeatedBlocks (blockHunk 4).oldLines 3 ∧
      OccursAt repeatedBlocks (blockHunk 4).oldLines 0 ∧
      computeReplacements asciiMatchers repeatedBlocks [blockHunk 4] true =
        .ok ([⟨0, 3, (blockHunk 4).newLines⟩], []) ∧ ¬ HunkPlacedAt ⟨[], [], 0⟩ (blockHunk 4) 3
        (computeHunk asciiMatchers repeatedBlocks true ⟨[], [], 0⟩ (blockHunk 4)) := by
  have hstep : computeHunk asciiMatchers repeatedBlocks true ⟨[], [], 0⟩ (blockHunk 4) =
      .ok ⟨[⟨0, 3, (blockHunk 4).newLines⟩], [], 3⟩ := by rfl
  refine ⟨by decide, by decide, by rfl, ?_⟩
  rw [hstep]
  rintro ⟨s', hs', hplaced⟩
  obtain rfl := Except.ok.inj hs'
  rw [if_neg (by decide)] at hplaced
  exact absurd hplaced (by decide)

end GajaeCode.PatchEdit
