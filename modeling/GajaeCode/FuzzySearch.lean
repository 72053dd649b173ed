import GajaeCode.EditFuzzy
import GajaeCode.FuzzyText
import Mathlib.Data.List.GetD
import Mathlib.Tactic.NormNum

/-! # Fuzzy search, in TypeScript and native

`findBestFuzzyMatch` and the sequence scorer of `edit/modes/replace.ts` slide the
target over the content and score every window; `h01_find_best_fuzzy_match` and
`h02_score_sequence_fuzzy` of the native addon do the same, with a bit-parallel
distance and a shortcut for a target of one line.

Scores are `f64` on both sides and computed by the same operations in the same
order, which `ScoreOps` abstracts.  What remains is the text: where no line has a
blank after a `|` (`FuzzyText.Plain`) every window gets the same score on both
sides, and so the searches return the same result.

The native side has Rust strings, made by `from_utf16_lossy`: its definitions below stand
for the code on lines that are `WellFormed`, which that leaves as they are.
-/
namespace GajaeCode.FuzzySearch
open JsString EditFuzzy FuzzyText List Option

/-- The `f64` operations of the two matchers.  `oneMinusRatio d n` is
`1 - d / n`, `divCount s n` is `s / n`; the two laws are those of `0 + s` and
`s / 1`, and neither matcher relies on another. -/
structure ScoreOps (F : Type) where
  zero : F
  one : F
  minusOne : F
  oneMinusRatio : Nat → Nat → F
  add : F → F → F
  divCount : F → Nat → F
  ge : F → F → Bool
  gt : F → F → Bool
  lt : F → F → Bool
  fallbackThreshold : F
  sequenceFuzzyThreshold : F
  mean_one : divCount (add zero one) 1 = one
  mean_oneMinusRatio : ∀ d n, divCount (add zero (oneMinusRatio d n)) 1 = oneMinusRatio d n

/-- `FuzzyMatch`, and `H01BestFuzzyMatch`. -/
structure FuzzyMatch (F : Type) where
  actualText : JsString
  startIndex : Nat
  startLine : Nat
  confidence : F

/-- `BestFuzzyMatchResult`, and `H01BestFuzzyMatchResult`. -/
structure BestFuzzyMatchResult (F : Type) where
  best : Option (FuzzyMatch F)
  aboveThresholdCount : Nat
  secondBestScore : F

structure Search (F : Type) where
  best : Option (FuzzyMatch F)
  bestScore : F
  secondBestScore : F
  aboveThresholdCount : Nat

section Scores
variable {F : Type} (o : ScoreOps F)

/-- The values the search loops start from. -/
def Search.start : Search F := ⟨none, o.minusOne, o.minusOne, 0⟩

/-- The bookkeeping of one window, the same in the three search loops. -/
def Search.record (threshold : F) (s : Search F) (found : FuzzyMatch F) : Search F :=
  let score := found.confidence
  let aboveThresholdCount :=
    if o.ge score threshold then s.aboveThresholdCount + 1 else s.aboveThresholdCount
  if o.gt score s.bestScore then
    { best := some found, bestScore := score, secondBestScore := s.bestScore, aboveThresholdCount }
  else if o.gt score s.secondBestScore then
    { s with secondBestScore := score, aboveThresholdCount }
  else { s with aboveThresholdCount }

def Search.result (s : Search F) : BestFuzzyMatchResult F :=
  ⟨s.best, s.aboveThresholdCount, s.secondBestScore⟩

/-- `computeLineOffsets`, and `line_offsets`: the offset of every line of a text
whose lines are separated by one unit. -/
def computeLineOffsets (offset : Nat) : List JsString → List Nat
  | [] => []
  | line :: lines => offset :: computeLineOffsets (offset + line.length + 1) lines

/-- The mean similarity of two blocks of lines: the sum over the lines from the
left, divided by their number. -/
def meanSimilarity (targetNormalized windowNormalized : List JsString) : F :=
  let score := (targetNormalized.zip windowNormalized).foldl
    (fun score p => o.add score (similarityDp o.one o.oneMinusRatio p.1 p.2)) o.zero
  o.divCount score targetNormalized.length

def windowAt (contentLines : List JsString) (n start : Nat) : List JsString :=
  (contentLines.drop start).take n

/-- The body of the loop of `findBestFuzzyMatchCore`: the window at `start` and
its score. -/
def scoreWindow (contentLines targetLines : List JsString) (offsets : List Nat)
    (includeDepth : Bool) (start : Nat) : FuzzyMatch F :=
  let windowLines := windowAt contentLines targetLines.length start
  { actualText := unlines windowLines
    startIndex := offsets.getD start 0
    startLine := start + 1
    confidence := meanSimilarity o (normalizeLines targetLines includeDepth)
      (normalizeLines windowLines includeDepth) }

def findBestFuzzyMatchCore (contentLines targetLines : List JsString) (offsets : List Nat)
    (threshold : F) (includeDepth : Bool) : BestFuzzyMatchResult F :=
  ((range (contentLines.length + 1 - targetLines.length)).foldl
    (fun s start =>
      s.record o threshold (scoreWindow o contentLines targetLines offsets includeDepth start))
    (Search.start o)).result

def findBestFuzzyMatch (content target : JsString) (threshold : F) : BestFuzzyMatchResult F :=
  let contentLines := lines content
  let targetLines := lines target
  if targetLines.length = 0 || target.length = 0 then ⟨none, 0, o.zero⟩
  else if targetLines.length > contentLines.length then ⟨none, 0, o.zero⟩
  else
    let offsets := computeLineOffsets 0 contentLines
    let result := findBestFuzzyMatchCore o contentLines targetLines offsets threshold true
    match result.best with
    | none => result
    | some best =>
        if o.lt best.confidence threshold && o.ge best.confidence o.fallbackThreshold then
          let noDepthResult :=
            findBestFuzzyMatchCore o contentLines targetLines offsets threshold false
          match noDepthResult.best with
          | some noDepthBest =>
              if o.gt noDepthBest.confidence best.confidence then noDepthResult else result
          | none => result
        else result

/-- The sum of `best_core`: the patterns of the target against the lines of a
window; `none` is a panic. -/
def addSimilarities : List (FuzzyPattern × List UInt16) → F → Option F
  | [], score => some score
  | (pattern, text) :: rest, score => do
      let similarity ← pattern.similarity o.one o.oneMinusRatio text
      addSimilarities rest (o.add score similarity)

/-- The body of the loop of `best_core`, on well-formed lines. -/
def bestCoreWindow (contentLines targetLines : List Line) (offsets : List Nat)
    (includeDepth : Bool) (start : Nat) : Option (FuzzyMatch F) :=
  let targetPatterns := (normalizeBlockLines targetLines includeDepth).map FuzzyPattern.new
  let window := windowAt contentLines targetLines.length start
  let windowNorm := normalizeBlockLines window includeDepth
  (addSimilarities o (targetPatterns.zip windowNorm) o.zero).map fun score =>
    { actualText := unlines window
      startIndex := offsets.getD start 0
      startLine := start + 1
      confidence := o.divCount score targetLines.length }

/-- The search loops of the native side, over the bodies of `best_core` and
`best_core_one_line`. -/
def searchWindows (threshold : F) (window : Nat → Option (FuzzyMatch F)) (starts : List Nat) :
    Option (BestFuzzyMatchResult F) :=
  (starts.foldlM (fun s start => (window start).map (s.record o threshold))
    (Search.start o)).map Search.result

def bestCore (contentLines targetLines : List Line) (offsets : List Nat) (threshold : F)
    (includeDepth : Bool) : Option (BestFuzzyMatchResult F) :=
  searchWindows o threshold (bestCoreWindow o contentLines targetLines offsets includeDepth)
    (range (contentLines.length - targetLines.length + 1))

/-- The prefix the one-line search puts before a line. -/
def oneLinePrefix (includeDepth : Bool) : List UInt16 :=
  if includeDepth then [0x0030, PIPE] else [PIPE]

/-- The body of the loop of `best_core_one_line`, on well-formed lines. -/
def bestCoreOneLineWindow (contentLines : List Line) (targetNorm : List UInt16)
    (offsets : List Nat) (includeDepth : Bool) (start : Nat) : Option (FuzzyMatch F) :=
  let line := contentLines.getD start []
  let windowNorm := oneLinePrefix includeDepth ++ normalizeLine line none
  ((FuzzyPattern.new targetNorm).similarity o.one o.oneMinusRatio windowNorm).map fun score =>
    { actualText := line
      startIndex := offsets.getD start 0
      startLine := start + 1
      confidence := score }

def bestCoreOneLine (contentLines : List Line) (targetNorm : List UInt16) (offsets : List Nat)
    (threshold : F) (includeDepth : Bool) : Option (BestFuzzyMatchResult F) :=
  searchWindows o threshold
    (bestCoreOneLineWindow o contentLines targetNorm offsets includeDepth)
    (range contentLines.length)

/-- The choice between the two searches in `h01_find_best_fuzzy_match`. -/
def bestMatch (contentLines targetLines : List Line) (offsets : List Nat) (threshold : F)
    (includeDepth : Bool) : Option (BestFuzzyMatchResult F) :=
  match targetLines with
  | [targetLine] =>
      let targetNorm := oneLinePrefix includeDepth ++ normalizeLine targetLine none
      bestCoreOneLine o contentLines targetNorm offsets threshold includeDepth
  | _ => bestCore o contentLines targetLines offsets threshold includeDepth

/-- The units of a JavaScript string behind `into_utf16`, without the NUL the
conversion appends. -/
def withoutNul (units : List UInt16) : List UInt16 :=
  if units.getLast? == some 0 then units.dropLast else units

/-- `h01_find_best_fuzzy_match`; `MAX_FUZZY_UNITS` is a parameter because the
environment sets it. -/
def h01FindBestFuzzyMatch (maxFuzzyUnits : Nat) (contentU16 targetU16 : List UInt16)
    (threshold : F) : Option (BestFuzzyMatchResult F) :=
  let contentUnits := withoutNul contentU16
  let targetUnits := withoutNul targetU16
  if contentUnits.length > maxFuzzyUnits || targetUnits.length > maxFuzzyUnits then
    some ⟨none, 0, o.zero⟩
  else
    let contentLines := lines contentUnits
    let targetLines := lines targetUnits
    if targetLines.isEmpty || targetUnits.isEmpty || targetLines.length > contentLines.length then
      some ⟨none, 0, o.zero⟩
    else do
      let offsets := computeLineOffsets 0 contentLines
      let result ← bestMatch o contentLines targetLines offsets threshold true
      match result.best with
      | none => pure result
      | some best =>
          if o.lt best.confidence threshold && o.ge best.confidence o.fallbackThreshold then
            let noDepth ← bestMatch o contentLines targetLines offsets threshold false
            match noDepth.best with
            | some noDepthBest =>
                pure (if o.gt noDepthBest.confidence best.confidence then noDepth else result)
            | none => pure result
          else pure result

/-! ## Sequence scores -/

def fuzzyScoreAt (lines pattern : List JsString) (i : Nat) : F :=
  let totalScore := (range pattern.length).foldl
    (fun score j =>
      let lineNorm := normalizeForFuzzy (lines.getD (i + j) [])
      let patternNorm := normalizeForFuzzy (pattern.getD j [])
      o.add score (similarityDp o.one o.oneMinusRatio lineNorm patternNorm))
    o.zero
  o.divCount totalScore pattern.length

/-- The window score of `h02_score_sequence_fuzzy`; `none` is a panic. -/
def h02ScoreAt (lineUnits patternUnits : List Line) (i : Nat) : Option F :=
  ((range patternUnits.length).foldlM
    (fun score j =>
      let lineNorm := normalizeLine (lineUnits.getD (i + j) []) none
      let patNorm := normalizeLine (patternUnits.getD j []) none
      ((FuzzyPattern.new lineNorm).similarity o.one o.oneMinusRatio patNorm).map (o.add score))
    o.zero).map fun score => o.divCount score patternUnits.length

/-- The variables of the sequence search, and `H02SequenceFuzzyResult`. -/
structure SequenceResult (F : Type) where
  index : Option Nat
  confidence : F
  matchCount : Nat
  matchIndices : List Nat
  secondBestScore : F

def maxRecordedMatches : Nat := 5

/-- The bookkeeping of one window, the same in both sequence searches. -/
def SequenceResult.record (s : SequenceResult F) (i : Nat) (score : F) : SequenceResult F :=
  let s :=
    if o.ge score o.sequenceFuzzyThreshold then
      { s with
        matchCount := s.matchCount + 1
        matchIndices :=
          if s.matchIndices.length < maxRecordedMatches then s.matchIndices ++ [i]
          else s.matchIndices }
    else s
  if o.gt score s.confidence then
    { s with index := some i, confidence := score, secondBestScore := s.confidence }
  else if o.gt score s.secondBestScore then { s with secondBestScore := score }
  else s

/-- The window starts `from, …, to` of a range loop, both ends included. -/
def rangeIncl (first last : Nat) : List Nat := range' first (last + 1 - first)

/-- The starts both sequence searches try, in order: from the search start on,
then, after a search at the end of the file, the ones before it. -/
def sequenceStarts (lineCount patternCount start : Nat) (eof : Bool) : List Nat :=
  let maxStart := lineCount - patternCount
  let searchStart := if eof && lineCount ≥ patternCount then maxStart else start
  rangeIncl searchStart maxStart ++
    if eof && searchStart > start then rangeIncl start (searchStart - 1) else []

/-- Pass 7 of `seekSequence`: the fuzzy scores of a pattern that is not empty and no longer
than the file. -/
def scoreFuzzyRanges (lines pattern : List JsString) (start : Nat) (eof : Bool) :
    SequenceResult F :=
  (sequenceStarts lines.length pattern.length start eof).foldl
    (fun s i => s.record o i (fuzzyScoreAt o lines pattern i)) ⟨none, o.zero, 0, [], o.zero⟩

/-- The native pass 7, on well-formed lines. -/
def h02ScoreSequenceFuzzy (lineUnits patternUnits : List Line) (start : Nat) (eof : Bool) :
    Option (SequenceResult F) :=
  if patternUnits.isEmpty || patternUnits.length > lineUnits.length then
    some ⟨none, o.zero, 0, [], o.zero⟩
  else
    (sequenceStarts lineUnits.length patternUnits.length start eof).foldlM
      (fun s i => (h02ScoreAt o lineUnits patternUnits i).map (s.record o i))
      ⟨none, o.zero, 0, [], o.zero⟩

theorem foldlM_eq_some_foldl {α β : Type} {f : β → α → Option β} {g : β → α → β} {l : List α}
    (h : ∀ b, ∀ a ∈ l, f b a = some (g b a)) (b : β) : l.foldlM f b = some (l.foldl g b) := by
  induction l generalizing b with
  | nil => rfl
  | cons a l ih =>
    rw [foldlM_cons, h b a mem_cons_self, foldl_cons]
    exact ih (fun b a ha => h b a (mem_cons_of_mem _ ha)) (g b a)

theorem addSimilarities_eq (norms texts : List JsString) (score : F) :
    addSimilarities o ((norms.map FuzzyPattern.new).zip texts) score = some ((norms.zip texts).foldl
        (fun score p => o.add score (similarityDp o.one o.oneMinusRatio p.1 p.2)) score) := by
  induction norms generalizing texts score with
  | nil => rfl
  | cons norm norms ih =>
    cases texts with
    | nil => rfl
    | cons text texts =>
      rw [map_cons, zip_cons_cons, zip_cons_cons, foldl_cons, addSimilarities,
        FuzzyPattern.similarity_new]
      exact ih texts _

@[simp] theorem normalizeLines_length (lines : List JsString) (includeDepth : Bool) :
    (normalizeLines lines includeDepth).length = lines.length := by
  simp [normalizeLines]

variable {contentLines targetLines : List JsString}

theorem plain_windowAt (hcontent : ∀ line ∈ contentLines, Plain line) (n start : Nat) :
    ∀ line ∈ windowAt contentLines n start, Plain line :=
  fun line hline => hcontent line (mem_of_mem_drop (mem_of_mem_take hline))

/-- The native loops, where every window scores as in TypeScript. -/
theorem searchWindows_eq {window : Nat → Option (FuzzyMatch F)} {starts : List Nat}
    {offsets : List Nat} {includeDepth : Bool} (threshold : F)
    (hstarts : starts = range (contentLines.length + 1 - targetLines.length))
    (hwindow : ∀ start ∈ starts,
      window start = some (scoreWindow o contentLines targetLines offsets includeDepth start)) :
    searchWindows o threshold window starts =
      some (findBestFuzzyMatchCore o contentLines targetLines offsets threshold includeDepth) := by
  unfold searchWindows findBestFuzzyMatchCore
  rw [foldlM_eq_some_foldl (g := fun s start =>
    s.record o threshold (scoreWindow o contentLines targetLines offsets includeDepth start)),
    map_some, hstarts]
  intro s start hstart
  rw [hwindow start hstart, map_some]

/-- **A window of `best_core`** scores as in TypeScript, on plain lines. -/
theorem bestCoreWindow_eq (hcontent : ∀ line ∈ contentLines, Plain line)
    (htarget : ∀ line ∈ targetLines, Plain line) (offsets : List Nat) (includeDepth : Bool)
    (start : Nat) : bestCoreWindow o contentLines targetLines offsets includeDepth start =
      some (scoreWindow o contentLines targetLines offsets includeDepth start) := by
  unfold bestCoreWindow scoreWindow meanSimilarity
  dsimp only
  rw [normalizeBlockLines_eq htarget, normalizeBlockLines_eq (plain_windowAt hcontent _ start),
    addSimilarities_eq, map_some, normalizeLines_length]

/-! ### A target of one line -/

theorem meanSimilarity_singleton (a b : JsString) :
    meanSimilarity o [a] [b] = similarityDp o.one o.oneMinusRatio a b := by
  unfold meanSimilarity similarityDp
  simp only [zip_cons_cons, zip_nil_right, foldl_cons, foldl_nil,
    length_singleton]
  split
  · exact o.mean_one
  · split
    · exact o.mean_one
    · exact o.mean_oneMinusRatio _ _

theorem computeRelativeIndentDepths_singleton (line : JsString) :
    computeRelativeIndentDepths [line] = [0] := by
  unfold computeRelativeIndentDepths
  by_cases h : (trim line).length = 0
  · simp [length_eq_zero_iff.mp h]
  · have hpos : 0 < (trim line).length := Nat.pos_of_ne_zero h
    simp [hpos, roundRatio]

theorem normalizeLines_singleton {line : JsString} (hplain : Plain line) (includeDepth : Bool) :
    normalizeLines [line] includeDepth =
      [oneLinePrefix includeDepth ++ normalizeLine line none] := by
  rw [← normalizeBlockLines_eq (by simpa using hplain)]
  cases includeDepth with
  | false => simp [normalizeBlockLines, oneLinePrefix]
  | true =>
    simp [normalizeBlockLines, oneLinePrefix, relativeIndentDepths_eq,
      computeRelativeIndentDepths_singleton, pushDepthPrefix]

theorem windowAt_one {start : Nat} (h : start < contentLines.length) :
    windowAt contentLines 1 start = [contentLines.getD start []] := by
  rw [windowAt, drop_eq_getElem_cons h, take_succ_cons, take_zero,
    getD_eq_getElem _ _ h]

/-- **A window of `best_core_one_line`** scores as in TypeScript, on plain lines. -/
theorem bestCoreOneLineWindow_eq {targetLine : JsString}
    (hcontent : ∀ line ∈ contentLines, Plain line) (htarget : Plain targetLine)
    (offsets : List Nat) (includeDepth : Bool) {start : Nat} (hstart : start < contentLines.length) :
    bestCoreOneLineWindow o contentLines
        (oneLinePrefix includeDepth ++ normalizeLine targetLine none) offsets includeDepth start =
      some (scoreWindow o contentLines [targetLine] offsets includeDepth start) := by
  have hmem : contentLines.getD start [] ∈ contentLines := by
    rw [getD_eq_getElem _ _ hstart]
    exact getElem_mem hstart
  unfold bestCoreOneLineWindow scoreWindow
  dsimp only [length_singleton]
  rw [windowAt_one hstart, normalizeLines_singleton (hcontent _ hmem),
    normalizeLines_singleton htarget, meanSimilarity_singleton, FuzzyPattern.similarity_new,
    unlines_singleton, map_some]

/-- **Both searches of `h01_find_best_fuzzy_match`**, on plain lines. -/
theorem bestMatch_eq (hcontent : ∀ line ∈ contentLines, Plain line)
    (htarget : ∀ line ∈ targetLines, Plain line) (hlen : targetLines.length ≤ contentLines.length)
    (offsets : List Nat) (threshold : F) (includeDepth : Bool) :
    bestMatch o contentLines targetLines offsets threshold includeDepth =
      some (findBestFuzzyMatchCore o contentLines targetLines offsets threshold includeDepth) := by
  unfold bestMatch
  split
  case h_1 targetLine =>
    refine searchWindows_eq o threshold (by simp) ?_
    intro start hstart
    exact bestCoreOneLineWindow_eq o hcontent (htarget _ (by simp)) offsets includeDepth
      (mem_range.mp hstart)
  case h_2 =>
    refine searchWindows_eq o threshold (congrArg range (by omega)) ?_
    intro start _
    exact bestCoreWindow_eq o hcontent htarget offsets includeDepth start

theorem withoutNul_concat (units : List UInt16) : withoutNul (units ++ [0]) = units := by
  simp [withoutNul]

/-- **The whole native search** returns what the TypeScript search returns, on
texts below the cap whose lines are plain. -/
theorem h01FindBestFuzzyMatch_eq {maxFuzzyUnits : Nat} {content target : JsString} (threshold : F)
    (hcontent : ∀ line ∈ lines content, Plain line) (htarget : ∀ line ∈ lines target, Plain line)
    (hcap : content.length ≤ maxFuzzyUnits) (htcap : target.length ≤ maxFuzzyUnits) :
    h01FindBestFuzzyMatch o maxFuzzyUnits (content ++ [0]) (target ++ [0]) threshold =
      some (findBestFuzzyMatch o content target threshold) := by
  unfold h01FindBestFuzzyMatch findBestFuzzyMatch
  simp only [withoutNul_concat]
  rw [if_neg (by simp; omega)]
  by_cases hempty : lines target = [] ∨ target = []
  · rw [if_pos (by simp; tauto), if_pos (by simpa using hempty)]
  by_cases hlong : (lines target).length > (lines content).length
  · rw [if_pos (by simp [hlong]), if_neg (by simpa using hempty), if_pos hlong]
  rw [if_neg (by simp at hempty hlong ⊢; tauto), if_neg (by simpa using hempty), if_neg hlong,
    bestMatch_eq o hcontent htarget (by omega), bestMatch_eq o hcontent htarget (by omega)]
  dsimp only [Option.bind_eq_bind, Option.bind_some, Option.pure_def]
  split
  · rfl
  · split
    · split <;> rfl
    · rfl

/-! ### Sequences -/

section
variable {lines pattern : List JsString} (hlines : ∀ line ∈ lines, Plain line)
    (hpattern : ∀ line ∈ pattern, Plain line)
include hlines hpattern

theorem h02ScoreAt_eq (i : Nat) :
    h02ScoreAt o lines pattern i = some (fuzzyScoreAt o lines pattern i) := by
  have hgetD : ∀ (ls : List JsString), (∀ line ∈ ls, Plain line) → ∀ j,
      normalizeLine (ls.getD j []) none = normalizeForFuzzy (ls.getD j []) := by
    intro ls hls j
    refine (normalizeLine_eq_iff _).mpr ?_
    by_cases hj : j < ls.length
    · exact hls _ (by simp [hj])
    · rw [getD_eq_default _ _ (by omega)]
      decide
  unfold h02ScoreAt fuzzyScoreAt
  rw [foldlM_eq_some_foldl (g := fun score j =>
    o.add score (similarityDp o.one o.oneMinusRatio (normalizeForFuzzy (lines.getD (i + j) []))
      (normalizeForFuzzy (pattern.getD j [])))), map_some]
  intro score j _
  dsimp only
  rw [hgetD lines hlines, hgetD pattern hpattern, FuzzyPattern.similarity_new, map_some]

/-- **The native sequence search** scores as the TypeScript one, on plain lines. -/
theorem h02ScoreSequenceFuzzy_eq (hne : pattern ≠ []) (hlen : pattern.length ≤ lines.length)
    (start : Nat) (eof : Bool) : h02ScoreSequenceFuzzy o lines pattern start eof =
      some (scoreFuzzyRanges o lines pattern start eof) := by
  unfold h02ScoreSequenceFuzzy scoreFuzzyRanges
  rw [if_neg (by simp [hne, hlen])]
  refine foldlM_eq_some_foldl ?_ _
  intro s i _
  rw [h02ScoreAt_eq o hlines hpattern i, map_some]

end

end Scores

/-- **The native side mirrors `normalizeForFuzzy` exactly on the lines in which no
blank follows a `|`.**  Where all lines of content and target are such lines,
every window has the same score on both sides, in both native searches and in the
sequence search, and below the native size cap the whole search agrees. -/
theorem native_fuzzy_mirrors_iff (line content target : JsString) :
    (normalizeLine line none = normalizeForFuzzy line ↔ ¬ PipeThenBlank (trim line)) ∧
    ∀ {F : Type} (o : ScoreOps F),
      (∀ line ∈ lines content ++ lines target, ¬ PipeThenBlank (trim line)) →
      (∀ offsets includeDepth start, start + (lines target).length ≤ (lines content).length →
        bestCoreWindow o (lines content) (lines target) offsets includeDepth start =
            some (scoreWindow o (lines content) (lines target) offsets includeDepth start) ∧
          ∀ targetLine, lines target = [targetLine] → bestCoreOneLineWindow o (lines content)
                (oneLinePrefix includeDepth ++ normalizeLine targetLine none) offsets includeDepth
                start =
              some (scoreWindow o (lines content) (lines target) offsets includeDepth start)) ∧
      (∀ i, h02ScoreAt o (lines content) (lines target) i =
        some (fuzzyScoreAt o (lines content) (lines target) i)) ∧
      ∀ maxFuzzyUnits threshold, content.length ≤ maxFuzzyUnits → target.length ≤ maxFuzzyUnits →
        h01FindBestFuzzyMatch o maxFuzzyUnits (content ++ [0]) (target ++ [0]) threshold =
          some (findBestFuzzyMatch o content target threshold) := by
  refine ⟨normalizeLine_eq_iff line, ?_⟩
  intro F o hplain
  have hcontent : ∀ line ∈ lines content, Plain line :=
    fun line hline => hplain line (mem_append_left _ hline)
  have htarget : ∀ line ∈ lines target, Plain line :=
    fun line hline => hplain line (mem_append_right _ hline)
  refine ⟨?_, h02ScoreAt_eq o hcontent htarget, ?_⟩
  · intro offsets includeDepth start hstart
    refine ⟨bestCoreWindow_eq o hcontent htarget offsets includeDepth start, ?_⟩
    intro targetLine hone
    rw [hone, length_singleton] at hstart
    rw [hone]
    exact bestCoreOneLineWindow_eq o hcontent (htarget _ (by simp [hone])) offsets includeDepth
      (by omega)
  · intro maxFuzzyUnits threshold hcap htcap
    exact h01FindBestFuzzyMatch_eq o threshold hcontent htarget hcap htcap

def rationalScores : ScoreOps ℚ where
  zero := 0
  one := 1
  minusOne := -1
  oneMinusRatio d n := 1 - d / n
  add := (· + ·)
  divCount s n := s / n
  ge a b := decide (b ≤ a)
  gt a b := decide (b < a)
  lt a b := decide (a < b)
  fallbackThreshold := 4 / 5
  sequenceFuzzyThreshold := 23 / 25
  mean_one := by norm_num
  mean_oneMinusRatio d n := by simp

theorem native_fuzzy_mirrors_assignment :
    h02ScoreAt rationalScores (lines (js "x  = 1")) (lines (js "x =\t1")) 0 =
      some (fuzzyScoreAt rationalScores (lines (js "x  = 1")) (lines (js "x =\t1")) 0) :=
  have hline : ∀ line ∈ lines (js "x  = 1") ++ lines (js "x =\t1"), PIPE ∉ trim line := by decide
  ((native_fuzzy_mirrors_iff [] (js "x  = 1") (js "x =\t1")).2 rationalScores
    fun line hmem h => hline line hmem h.mem).2.1 0

theorem h02ScoreSequenceFuzzy_eq_blanks :
    h02ScoreSequenceFuzzy rationalScores [js "if x:", js "x  = 1"] [js "x =\t1"] 0 true =
      some (scoreFuzzyRanges rationalScores [js "if x:", js "x  = 1"] [js "x =\t1"] 0 true) := by
  have hlines : ∀ line ∈ [js "if x:", js "x  = 1"], PIPE ∉ trim line := by decide
  have hpattern : ∀ line ∈ [js "x =\t1"], PIPE ∉ trim line := by decide
  exact h02ScoreSequenceFuzzy_eq rationalScores (fun line hmem h => hlines line hmem h.mem)
    (fun line hmem h => hpattern line hmem h.mem) (by decide) (by decide) 0 true

/-- A well-formed line without a newline on which the two sides differ, and a
window they score differently: the native side finds `a| b` equal to `a|b`. -/
theorem native_fuzzy_drops_blank_after_pipe : (WellFormed (js "a| b") ∧ LF ∉ js "a| b" ∧
      normalizeLine (js "a| b") none ≠ normalizeForFuzzy (js "a| b")) ∧
    h02ScoreAt rationalScores [js "a| b"] [js "a|b"] 0 = some 1 ∧
      fuzzyScoreAt rationalScores [js "a| b"] [js "a|b"] 0 = 3 / 4 := by
  refine ⟨⟨?_, by decide, by decide⟩, by with_unfolding_all rfl, by with_unfolding_all rfl⟩
  show WellFormed [0x61, 0x7c, 0x20, 0x62]
  simp [WellFormed, isHighSurrogate, isLowSurrogate]

end GajaeCode.FuzzySearch
