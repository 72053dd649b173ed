import GajaeCode.Indentation
import GajaeCode.ReplaceMatch

/-! # The matchers of patch mode

What `Matchers` leaves open, as the source has it: the last passes of `seekSequence` and
`findContextLine` of `packages/coding-agent/src/edit/modes/replace.ts`, and the indentation of
lines that were not matched exactly.  Open remain the normal form of the runtime, the native
scorers and the arithmetic of scores.
-/
namespace GajaeCode.PatchEdit
open JsString FuzzyText FuzzySearch EditFuzzy

/-- The thresholds of the last passes. -/
structure PatchScores (F : Type) extends MatchScores F where
  characterMatchThreshold : F
  contextFuzzyThreshold : F

def rationalPatchScores : PatchScores ℚ where
  toMatchScores := rationalMatchScores
  characterMatchThreshold := 23 / 25
  contextFuzzyThreshold := 4 / 5

/-- `h02ScoreSequenceFuzzy` and `h01FindBestFuzzyMatch`, once the native module is loaded. -/
structure NativeScorers (F : Type) where
  scoreSequenceFuzzy :
    Option (List JsString → List JsString → Nat → Bool → SequenceResult F) := none
  findBestFuzzyMatch : Option (JsString → JsString → F → BestFuzzyMatchResult F) := none

section Matchers
variable {F : Type} (o : PatchScores F) (native : NativeScorers F)

/-- The result of the fuzzy scores, if they are good enough. -/
def fuzzyResult (s : SequenceResult F) : Option SearchResult :=
  match s.index with
  | none => none
  | some index =>
      if o.ge s.confidence o.sequenceFuzzyThreshold then
        if 1 < s.matchCount ∧ o.ge s.confidence o.dominantFuzzyMinConfidence = true ∧
            o.ge (o.sub s.confidence s.secondBestScore) o.dominantFuzzyDelta = true then
          some ⟨some index, some 1, some s.matchIndices, some .fuzzyDominant⟩
        else some ⟨some index, some s.matchCount, some s.matchIndices, some .fuzzy⟩
      else none

/-- Pass 8: the text of the pattern in the text of the lines from the start on.  Where the start
is behind the last line that text is empty, and it is still one line. -/
def characterPass (lines pattern : List JsString) (start : Nat) : SearchResult :=
  let contentText := unlines (lines.drop start)
  let matchOutcome := findMatch o.toMatchScores native.findBestFuzzyMatch contentText
    (unlines pattern) true (some o.characterMatchThreshold)
  let fallbackMatchCount := matchOutcome.occurrences.or matchOutcome.fuzzyMatches
  match matchOutcome.matched with
  | some m =>
      let matchedContent := contentText.take m.startIndex
      ⟨some (start + (JsString.lines matchedContent).length - 1),
        some (fallbackMatchCount.getD 1), none, some .character⟩
  | none => ⟨none, fallbackMatchCount, none, none⟩

/-- The passes of `seekSequence` after the partial ones. -/
def fuzzyPasses (lines pattern : List JsString) (start : Nat) (eof : Bool) : SearchResult :=
  let nativeFuzzyResult := native.scoreSequenceFuzzy.bind fun score =>
    fuzzyResult o (score lines pattern start eof)
  match nativeFuzzyResult.or
      (fuzzyResult o (scoreFuzzyRanges o.toScoreOps lines pattern start eof)) with
  | some result => result
  | none => characterPass o native lines pattern start

/-! ## `findContextLine` -/

/-- The indices from the start on at which the line satisfies the predicate. -/
def matchingLines (lines : List JsString) (startFrom : Nat) (predicate : JsString → Bool) :
    List Nat :=
  (List.range' startFrom (lines.length - startFrom)).filter fun i =>
    predicate (lines.getD i [])

/-- The passes that count all their matches. -/
def contextPass (lines : List JsString) (startFrom : Nat) (predicate : JsString → Bool)
    (strategy : MatchStrategy) : Option SearchResult :=
  let found := matchingLines lines startFrom predicate
  toAmbiguousMatchResult ⟨found.head?, found.length, found.take maxRecordedMatches⟩ strategy

/-- Pass 5: one line that contains the context is taken whatever its length; of several, those
of which the context makes up three tenths or more, or else all. -/
def substringPass (lines : List JsString) (startFrom : Nat) (contextNorm : JsString) :
    Option SearchResult :=
  let all := matchingLines lines startFrom fun line => contextNorm <:+: normalizeForFuzzy line
  let close := all.filter fun i =>
    decide (3 * max 1 (normalizeForFuzzy (lines.getD i [])).length ≤ 10 * contextNorm.length)
  if all.length ≠ 1 ∧ close ≠ [] then
    some ⟨close.head?, some close.length, some (all.take 5), some .substring⟩
  else
    all.head?.map fun index => ⟨some index, some all.length, some (all.take 5), some .substring⟩

/-- The variables of pass 6: the best line and its score, and the lines that are close enough. -/
structure ContextScores (F : Type) where
  bestIndex : Option Nat
  bestScore : F
  close : List Nat

def scoreContexts (lines : List JsString) (startFrom : Nat) (contextNorm : JsString) :
    ContextScores F :=
  (List.range' startFrom (lines.length - startFrom)).foldl
    (fun s i =>
      let score := similarityDp o.one o.oneMinusRatio (normalizeForFuzzy (lines.getD i []))
        contextNorm
      let close := if o.ge score o.contextFuzzyThreshold then s.close ++ [i] else s.close
      if o.gt score s.bestScore then ⟨some i, score, close⟩ else { s with close })
    ⟨none, o.zero, []⟩

/-- `findContextLine` up to the fallback for functions. -/
def findContextLinePasses (nfc : JsString → JsString) (lines : List JsString)
    (context : JsString) (startFrom : Nat) (allowFuzzy : Bool) : Option SearchResult :=
  let exact :=
    (contextPass lines startFrom (fun line => line = context) .exact).or
      ((contextPass lines startFrom (fun line => trim line = trim context) .trim).or
        (contextPass lines startFrom
          (fun line => normalizeUnicode nfc line = normalizeUnicode nfc context) .unicode))
  if exact.isSome || !allowFuzzy then exact
  else
    let contextNorm := normalizeForFuzzy context
    let byPrefix :=
      if contextNorm.length > 0 then
        contextPass lines startFrom (fun line => contextNorm <+: normalizeForFuzzy line) .linePrefix
      else none
    let bySubstring :=
      if contextNorm.length ≥ partialMatchMinLength then
        substringPass lines startFrom contextNorm
      else none
    let byScore :=
      let scores := scoreContexts o lines startFrom contextNorm
      scores.bestIndex.bind fun index =>
        if o.ge scores.bestScore o.contextFuzzyThreshold then
          some ⟨some index, some scores.close.length,
            some (scores.close.take maxRecordedMatches), some .fuzzy⟩
        else none
    byPrefix.or (bySubstring.or byScore)

/-- `findContextLine`: what is written as a call is also looked for without its parentheses. -/
def findContextLine (nfc : JsString → JsString) (lines : List JsString) (context : JsString)
    (startFrom : Nat) (allowFuzzy : Bool) : SearchResult :=
  match findContextLinePasses o nfc lines context startFrom allowFuzzy with
  | some result => result
  | none =>
      let trimmedContext := trim context
      if allowFuzzy && (js "()").isSuffixOf trimmedContext then
        let withParen := trimmedContext.dropLast
        let withoutParen := withParen.dropLast
        let parenResult :=
          (findContextLinePasses o nfc lines withParen startFrom allowFuzzy).getD .notFound
        if parenResult.index.isSome || decide (0 < parenResult.matchCount.getD 0) then parenResult
        else (findContextLinePasses o nfc lines withoutParen startFrom allowFuzzy).getD .notFound
      else .notFound

def sourceMatchers (nfc : JsString → JsString) : Matchers where
  nfc := nfc
  fuzzyPasses := fuzzyPasses o native
  findContextLine := findContextLine o nfc
  reindent := reindentLines

end Matchers

end GajaeCode.PatchEdit
