import GajaeCode.FuzzySearch

/-! # Finding a block of lines

`seekSequence` of `edit/modes/replace.ts` and `findSequenceWithHint` of
`edit/modes/patch.ts`.  The old lines of a hunk are looked for with one comparison after
the other, from equality to similarity.  The exact passes report the first match only;
the partial ones also report how many there are, and ambiguity is judged by that number.

The passes after the partial ones (fuzzy scores, characters) rest on floating-point
scores and the native addon; they are a parameter here, as is the Unicode normal form of
the runtime.  Confidences are left out: they go into messages only.
-/
namespace GajaeCode.PatchEdit
open JsString FuzzyText FuzzySearch List
variable {pattern : List JsString} {allowFuzzy : Bool} {start : Nat}
variable {predicate : Nat → Bool} {stop i : Nat} {eof : Bool}

/-- `SequenceMatchStrategy` and `ContextMatchStrategy`. -/
inductive MatchStrategy where
  | exact | trimTrailing | trim | commentPrefix | unicode | linePrefix | substring | fuzzy
  | fuzzyDominant | character
  deriving DecidableEq

/-- `SequenceSearchResult` and `ContextLineResult`. -/
structure SearchResult where
  index : Option Nat
  matchCount : Option Nat
  matchIndices : Option (List Nat)
  strategy : Option MatchStrategy
  deriving DecidableEq

namespace SearchResult

/-- A search that found nothing and counted nothing. -/
def notFound : SearchResult := ⟨none, none, none, none⟩

/-- `matchCount && matchCount > 1`. -/
def isAmbiguous (r : SearchResult) : Bool := decide (1 < r.matchCount.getD 0)

/-- There is something to report. -/
def isConclusive (r : SearchResult) : Bool := r.index.isSome || r.isAmbiguous

/-- Found at one place only, as far as that was counted. -/
def isUnique (r : SearchResult) : Bool := r.index.isSome && decide (r.matchCount.getD 1 ≤ 1)

end SearchResult

/-- The character classes of `UNICODE_REPLACEMENTS`.  No replacement falls into another
class, so one pass does what the source's passes do. -/
def replaceUnit (u : CodeUnit) : JsString :=
  if (0x2010 ≤ u && u ≤ 0x2015) || u == 0x2212 then js "-"
  else if 0x2018 ≤ u && u ≤ 0x201b then js "'"
  else if 0x201c ≤ u && u ≤ 0x201f then js "\""
  else if u == 0x00a0 || (0x2002 ≤ u && u ≤ 0x200a) || u == 0x202f || u == 0x205f ||
    u == 0x3000 then js " "
  else if u == 0x2260 then js "!="
  else if u == 0x00bd then js "1/2"
  else if (0x200b ≤ u && u ≤ 0x200d) || u == 0xfeff then []
  else [u]

/-- `normalizeUnicode`, over the runtime's `normalize("NFC")`. -/
def normalizeUnicode (nfc : JsString → JsString) (s : JsString) : JsString :=
  nfc ((JsString.trim s).flatMap replaceUnit)

/-- The start of a comment, taken off. -/
def dropCommentStart (trimmed : JsString) : JsString :=
  if js "/*" <+: trimmed then trimmed.drop 2
  else if js "*/" <+: trimmed then trimmed.drop 2
  else if js "//" <+: trimmed then trimmed.drop 2
  else if js "*" <+: trimmed then trimmed.drop 1
  else if js "#" <+: trimmed then trimmed.drop 1
  else if js ";" <+: trimmed then trimmed.drop 1
  else if js "/ " <+: trimmed then trimmed.drop 1
  else trimmed

def stripCommentPrefix (line : JsString) : JsString :=
  trimStart (dropCommentStart (trimStart line))

def lineStartsWithPattern (line pattern : JsString) : Bool :=
  let lineNorm := normalizeForFuzzy line
  let patternNorm := normalizeForFuzzy pattern
  if patternNorm.length = 0 then lineNorm.length = 0 else decide (patternNorm <+: lineNorm)

def partialMatchMinLength : Nat := 6

/-- `lineIncludesPattern`; the pattern makes up three tenths of the line or more. -/
def lineIncludesPattern (line pattern : JsString) : Bool :=
  let lineNorm := normalizeForFuzzy line
  let patternNorm := normalizeForFuzzy pattern
  if patternNorm.length = 0 then lineNorm.length = 0
  else if patternNorm.length < partialMatchMinLength then false
  else if ¬ patternNorm <:+: lineNorm then false
  else decide (3 * max 1 lineNorm.length ≤ 10 * patternNorm.length)

/-- What the two modules use of code that is not embedded: the runtime's normal form, the
last passes of `seekSequence`, the search for one context line and the indentation of
lines that were not matched exactly. -/
structure Matchers where
  nfc : JsString → JsString
  fuzzyPasses : List JsString → List JsString → Nat → Bool → SearchResult
  findContextLine : List JsString → JsString → Nat → Bool → SearchResult
  reindent : List JsString → List JsString → List JsString → List JsString

variable (m : Matchers)

structure IndexedMatches where
  firstMatch : Option Nat
  matchCount : Nat
  matchIndices : List Nat

def collectIndexedMatches (start endInclusive : Nat) (predicate : Nat → Bool) :
    IndexedMatches :=
  let found := (rangeIncl start endInclusive).filter predicate
  ⟨found.head?, found.length, found.take maxRecordedMatches⟩

def toSingleMatchResult (matches' : IndexedMatches) (strategy : MatchStrategy) :
    Option SearchResult :=
  matches'.firstMatch.map fun index => ⟨some index, none, none, some strategy⟩

def toAmbiguousMatchResult (matches' : IndexedMatches) (strategy : MatchStrategy) :
    Option SearchResult :=
  matches'.firstMatch.map fun index =>
    ⟨some index, some matches'.matchCount, some matches'.matchIndices, some strategy⟩

def matchesAt (lines pattern : List JsString) (i : Nat)
    (compare : JsString → JsString → Bool) : Bool :=
  (range pattern.length).all fun j => compare (lines.getD (i + j) []) (pattern.getD j [])

def comparisonPasses : List ((JsString → JsString → Bool) × MatchStrategy) :=
  [(fun a b => a = b, .exact),
    (fun a b => trimEnd a = trimEnd b, .trimTrailing),
    (fun a b => JsString.trim a = JsString.trim b, .trim),
    (fun a b => stripCommentPrefix a = stripCommentPrefix b, .commentPrefix),
    (fun a b => normalizeUnicode m.nfc a = normalizeUnicode m.nfc b, .unicode)]

def partialPasses : List ((JsString → JsString → Bool) × MatchStrategy) :=
  [(lineStartsWithPattern, .linePrefix), (lineIncludesPattern, .substring)]

/-- `runExactPasses`, the function inside `seekSequence`. -/
def runExactPasses (lines pattern : List JsString) (allowFuzzy : Bool) (start stop : Nat) :
    Option SearchResult :=
  let exact := (comparisonPasses m).findSome? fun pass =>
    toSingleMatchResult
      (collectIndexedMatches start stop (fun i => matchesAt lines pattern i pass.1)) pass.2
  match exact with
  | some result => some result
  | none =>
    if !allowFuzzy then none
    else
      partialPasses.findSome? fun pass =>
        toAmbiguousMatchResult
          (collectIndexedMatches start stop (fun i => matchesAt lines pattern i pass.1)) pass.2

def seekSequence (lines pattern : List JsString) (start : Nat) (eof allowFuzzy : Bool) :
    SearchResult :=
  if pattern.length = 0 then ⟨some start, none, none, some .exact⟩
  else if lines.length < pattern.length then .notFound
  else
    let maxStart := lines.length - pattern.length
    let searchStart := if eof then maxStart else start
    match runExactPasses m lines pattern allowFuzzy searchStart maxStart with
    | some result => result
    | none =>
      let fromStart :=
        if eof && decide (start < searchStart) then
          runExactPasses m lines pattern allowFuzzy start maxStart
        else none
      match fromStart with
      | some result => result
      | none => if !allowFuzzy then .notFound else m.fuzzyPasses lines pattern start eof

def findSequenceWithHint (lines pattern : List JsString) (currentIndex : Nat)
    (hintIndex : Option Nat) (eof allowFuzzy : Bool) : SearchResult :=
  let primaryResult := seekSequence m lines pattern currentIndex eof allowFuzzy
  let hinted : Option SearchResult :=
    match hintIndex with
    | none => none
    | some hint =>
      if hint = currentIndex then none
      else some (seekSequence m lines pattern hint eof allowFuzzy)
  let byHint : Option SearchResult :=
    if primaryResult.isAmbiguous then hinted.filter (fun r => r.isUnique || r.isAmbiguous)
    else none
  match byHint with
  | some result => result
  | none =>
    if primaryResult.isConclusive then primaryResult
    else
      match hinted.filter (fun r => r.isConclusive) with
      | some result => result
      | none =>
        if currentIndex ≠ 0 then
          let fromStartResult := seekSequence m lines pattern 0 eof allowFuzzy
          if fromStartResult.isConclusive then fromStartResult else primaryResult
        else primaryResult

/-! ## Occurrences -/

/-- The pattern stands in the file at an index, line by line. -/
def OccursAt (lines pattern : List JsString) (i : Nat) : Prop :=
  i + pattern.length ≤ lines.length ∧ (lines.drop i).take pattern.length = pattern

instance (lines pattern : List JsString) (i : Nat) : Decidable (OccursAt lines pattern i) :=
  inferInstanceAs (Decidable (_ ∧ _))

/-- The pattern matches at an index, in one of the passes before the fuzzy ones. -/
def MatchesSomehow (lines pattern : List JsString) (allowFuzzy : Bool) (i : Nat) : Prop :=
  (∃ pass ∈ comparisonPasses m, matchesAt lines pattern i pass.1 = true) ∨
    allowFuzzy = true ∧ ∃ pass ∈ partialPasses, matchesAt lines pattern i pass.1 = true

instance (lines pattern : List JsString) (allowFuzzy : Bool) (i : Nat) :
    Decidable (MatchesSomehow m lines pattern allowFuzzy i) :=
  inferInstanceAs (Decidable (_ ∨ _))

variable {lines : List JsString}

theorem matchesAt_eq_iff (h : i + pattern.length ≤ lines.length) :
    matchesAt lines pattern i (fun a b => a = b) = true ↔ OccursAt lines pattern i := by
  rw [matchesAt, all_eq_true, OccursAt, and_iff_right h]
  constructor
  · intro hall
    apply ext_getElem?
    intro j
    by_cases hj : j < pattern.length
    · have hunits := hall j (mem_range.mpr hj)
      rw [decide_eq_true_eq, getD_eq_getElem _ _ (by omega), getD_eq_getElem _ _ hj]
        at hunits
      rw [getElem?_take_of_lt hj, getElem?_drop, getElem?_eq_getElem (by omega),
        getElem?_eq_getElem hj, hunits]
    · rw [getElem?_eq_none (by simp; omega), getElem?_eq_none (by omega)]
  · intro heq j hj
    rw [mem_range] at hj
    have hunits := congrArg (fun l => l[j]?) heq
    simp only [getElem?_take_of_lt hj, getElem?_drop] at hunits
    rw [decide_eq_true_eq, getD_eq_getElem?_getD, getD_eq_getElem?_getD, hunits]

theorem mem_rangeIncl {first last : Nat} : i ∈ rangeIncl first last ↔ first ≤ i ∧ i ≤ last := by
  rw [rangeIncl, mem_range'_1]
  omega

/-- The first match of a pass is the least index that satisfies its predicate. -/
theorem firstMatch_eq_some_iff : (collectIndexedMatches start stop predicate).firstMatch = some i ↔
      start ≤ i ∧ i ≤ stop ∧ predicate i = true ∧ ∀ j, start ≤ j → j < i → predicate j = false := by
  rw [collectIndexedMatches, head?_filter, rangeIncl]
  have hrange := find?_range'_eq_some (s := start) (n := stop + 1 - start) (i := i)
    (p := predicate)
  rw [hrange, mem_range'_1]
  constructor
  · rintro ⟨hi, hmem, hleast⟩
    exact ⟨hmem.1, by omega, hi, fun j hj hji => by simpa using hleast j hj hji⟩
  · rintro ⟨hstart, hstop, hi, hleast⟩
    exact ⟨hi, ⟨hstart, by omega⟩, fun j hj hji => by simpa using hleast j hj hji⟩

theorem firstMatch_eq_none_iff : (collectIndexedMatches start stop predicate).firstMatch = none ↔
      ∀ j, start ≤ j → j ≤ stop → predicate j = false := by
  rw [collectIndexedMatches, head?_eq_none_iff, filter_eq_nil_iff]
  constructor
  · intro h j hstart hstop
    exact Bool.not_eq_true _ ▸ h j (mem_rangeIncl.mpr ⟨hstart, hstop⟩)
  · intro h j hj
    rw [mem_rangeIncl] at hj
    rw [h j hj.1 hj.2]
    exact Bool.false_ne_true

theorem findSome?_single {passes : List ((JsString → JsString → Bool) × MatchStrategy)}
    {result : SearchResult}
    (h : passes.findSome? (fun pass => toSingleMatchResult (collectIndexedMatches start stop (fun i
      => matchesAt lines pattern i pass.1)) pass.2) = some result) :
    ∃ pass ∈ passes, ∃ i, (collectIndexedMatches start stop
      (fun i => matchesAt lines pattern i pass.1)).firstMatch = some i ∧
        result = ⟨some i, none, none, some pass.2⟩ := by
  obtain ⟨pass, hpass, hresult⟩ := exists_of_findSome?_eq_some h
  obtain ⟨i, hi, rfl⟩ := Option.map_eq_some_iff.mp hresult
  exact ⟨pass, hpass, i, hi, rfl⟩

theorem runExactPasses_eq_none_iff : runExactPasses m lines pattern allowFuzzy start stop = none ↔
      ∀ i, start ≤ i → i ≤ stop → ¬ MatchesSomehow m lines pattern allowFuzzy i := by
  have hpass : ∀ (compare : JsString → JsString → Bool), (collectIndexedMatches start stop
        (fun i => matchesAt lines pattern i compare)).firstMatch = none ↔
      ∀ i, start ≤ i → i ≤ stop → matchesAt lines pattern i compare = false := fun compare =>
    firstMatch_eq_none_iff
  have hexact : (comparisonPasses m).findSome? (fun pass => toSingleMatchResult
        (collectIndexedMatches start stop (fun i => matchesAt lines pattern i pass.1)) pass.2) =
      none ↔ ∀ i, start ≤ i → i ≤ stop → ∀ pass ∈ comparisonPasses m,
        matchesAt lines pattern i pass.1 = false := by
    rw [findSome?_eq_none_iff]
    simp only [toSingleMatchResult, Option.map_eq_none_iff, hpass]
    exact ⟨fun h i hi hi' pass hp => h pass hp i hi hi',
      fun h pass hp i hi hi' => h i hi hi' pass hp⟩
  have hpartial : partialPasses.findSome? (fun pass => toAmbiguousMatchResult
        (collectIndexedMatches start stop (fun i => matchesAt lines pattern i pass.1)) pass.2) =
      none ↔ ∀ i, start ≤ i → i ≤ stop → ∀ pass ∈ partialPasses,
        matchesAt lines pattern i pass.1 = false := by
    rw [findSome?_eq_none_iff]
    simp only [toAmbiguousMatchResult, Option.map_eq_none_iff, hpass]
    exact ⟨fun h i hi hi' pass hp => h pass hp i hi hi',
      fun h pass hp i hi hi' => h i hi hi' pass hp⟩
  have hsomehow : ∀ i, ¬ MatchesSomehow m lines pattern allowFuzzy i ↔
      (∀ pass ∈ comparisonPasses m, matchesAt lines pattern i pass.1 = false) ∧
      (allowFuzzy = true → ∀ pass ∈ partialPasses, matchesAt lines pattern i pass.1 = false) := by
    intro i
    rw [MatchesSomehow, not_or, not_and]
    simp only [not_exists, not_and, Bool.not_eq_true]
  simp only [hsomehow]
  rw [runExactPasses]
  cases hfound : (comparisonPasses m).findSome? (fun pass => toSingleMatchResult
      (collectIndexedMatches start stop (fun i => matchesAt lines pattern i pass.1)) pass.2) with
  | some result =>
    simp only [reduceCtorEq, false_iff, not_forall]
    by_contra hnone
    have := hexact.mpr (fun i hi hi' => by
      by_contra hi''
      exact hnone ⟨i, hi, hi', fun h => hi'' h.1⟩)
    rw [hfound] at this
    exact absurd this (Option.some_ne_none result)
  | none =>
    have hall := hexact.mp hfound
    cases allowFuzzy with
    | false =>
      simp only [Bool.not_false, if_true, true_iff]
      exact fun i hi hi' => ⟨hall i hi hi', fun h => absurd h Bool.false_ne_true⟩
    | true =>
      simp only [Bool.not_true, Bool.false_eq_true, if_false, true_implies, hpartial]
      exact ⟨fun h i hi hi' => ⟨hall i hi hi', h i hi hi'⟩, fun h i hi hi' => (h i hi hi').2⟩

/-- If the pattern occurs in the range, its first occurrence is the result, and nothing
is counted. -/
theorem runExactPasses_of_occurs (allowFuzzy : Bool)
    (hlength : pattern.length ≤ lines.length) (hstart : start ≤ i) (hi : OccursAt lines pattern i)
    (hleast : ∀ j, start ≤ j → j < i → ¬ OccursAt lines pattern j) :
    runExactPasses m lines pattern allowFuzzy start (lines.length - pattern.length) =
      some ⟨some i, none, none, some .exact⟩ := by
  have hstop : i ≤ lines.length - pattern.length := by
    have := hi.1
    omega
  have hfirst : (collectIndexedMatches start (lines.length - pattern.length)
      (fun j => matchesAt lines pattern j (fun a b => a = b))).firstMatch = some i := by
    rw [firstMatch_eq_some_iff]
    refine ⟨hstart, hstop, (matchesAt_eq_iff hi.1).mpr hi, fun j hj hji => ?_⟩
    rw [← Bool.not_eq_true, matchesAt_eq_iff (by omega)]
    exact hleast j hj hji
  rw [runExactPasses, comparisonPasses, findSome?_cons, toSingleMatchResult, hfirst]
  rfl

theorem runExactPasses_single {k : Nat} (h : MatchesSomehow m lines pattern allowFuzzy k) :
    ∃ result, runExactPasses m lines pattern allowFuzzy k k = some result ∧
      result.index = some k ∧ result.isAmbiguous = false ∧
      result.strategy ≠ some .fuzzyDominant := by
  have hsome : runExactPasses m lines pattern allowFuzzy k k ≠ none := by
    rw [Ne, runExactPasses_eq_none_iff, not_forall]
    exact ⟨k, fun hnot => hnot le_rfl le_rfl h⟩
  obtain ⟨result, hresult⟩ := Option.ne_none_iff_exists'.mp hsome
  refine ⟨result, hresult, ?_⟩
  have honly : ∀ {predicate : Nat → Bool} {i : Nat},
      (collectIndexedMatches k k predicate).firstMatch = some i → i = k ∧
        (collectIndexedMatches k k predicate).matchCount ≤ 1 := by
    intro predicate i hi
    have := firstMatch_eq_some_iff.mp hi
    have hlength : ((rangeIncl k k).filter predicate).length ≤ (rangeIncl k k).length :=
      length_filter_le _ _
    rw [rangeIncl, length_range'] at hlength
    have hcount : (collectIndexedMatches k k predicate).matchCount ≤ 1 := by
      change ((rangeIncl k k).filter predicate).length ≤ 1
      rw [rangeIncl]
      omega
    exact ⟨by omega, hcount⟩
  rw [runExactPasses] at hresult
  cases hfound : (comparisonPasses m).findSome? (fun pass => toSingleMatchResult
      (collectIndexedMatches k k (fun i => matchesAt lines pattern i pass.1)) pass.2) with
  | some exact =>
    rw [hfound] at hresult
    obtain rfl := some.inj hresult
    obtain ⟨pass, hpass, i, hi, rfl⟩ := findSome?_single hfound
    obtain ⟨rfl, -⟩ := honly hi
    refine ⟨rfl, rfl, fun hdominant => ?_⟩
    simp only [comparisonPasses, mem_cons, not_mem_nil, or_false] at hpass
    rcases hpass with rfl | rfl | rfl | rfl | rfl <;> simp at hdominant
  | none =>
    rw [hfound] at hresult
    cases allowFuzzy with
    | false => exact absurd hresult (by simp)
    | true =>
      simp only [Bool.not_true, Bool.false_eq_true, if_false] at hresult
      obtain ⟨pass, hpass, hpartial⟩ := exists_of_findSome?_eq_some hresult
      obtain ⟨i, hi, rfl⟩ := Option.map_eq_some_iff.mp hpartial
      obtain ⟨rfl, hcount⟩ := honly hi
      refine ⟨rfl, ?_, fun hdominant => ?_⟩
      · rw [SearchResult.isAmbiguous, Option.getD_some, decide_eq_false_iff_not]
        omega
      · simp only [partialPasses, mem_cons, not_mem_nil, or_false] at hpass
        rcases hpass with rfl | rfl <;> simp at hdominant

/-- The index at which old lines are found that occur: their first occurrence, or, for a
hunk at the end of the file, the last lines if they match in any pass. -/
def foundIndex (lines pattern : List JsString) (eof allowFuzzy : Bool) (first : Nat) : Nat :=
  let maxStart := lines.length - pattern.length
  if eof = true ∧ MatchesSomehow m lines pattern allowFuzzy maxStart then maxStart else first

/-- What the passes find from the search start on is the result. -/
theorem seekSequence_of_passes (hpattern : pattern ≠ [])
    (hlength : pattern.length ≤ lines.length) {result : SearchResult}
    (h : runExactPasses m lines pattern allowFuzzy (if eof then lines.length - pattern.length else
      start) (lines.length - pattern.length) = some result) :
    seekSequence m lines pattern start eof allowFuzzy = result := by
  have hne : pattern.length ≠ 0 := fun h => hpattern (length_eq_zero_iff.mp h)
  simp only [seekSequence, if_neg hne, if_neg (Nat.not_lt.mpr hlength), h]

/-- At the end of the file the search goes on from the cursor. -/
theorem seekSequence_of_fromStart (hpattern : pattern ≠ [])
    (hstart : start < lines.length - pattern.length)
    (hlast : runExactPasses m lines pattern allowFuzzy (lines.length - pattern.length)
      (lines.length - pattern.length) = none) {result : SearchResult}
    (h : runExactPasses m lines pattern allowFuzzy start (lines.length - pattern.length) = some
      result) : seekSequence m lines pattern start true allowFuzzy = result := by
  have hne : pattern.length ≠ 0 := fun h => hpattern (length_eq_zero_iff.mp h)
  have hlength : ¬ lines.length < pattern.length := by omega
  simp only [seekSequence, if_neg hne, if_neg hlength, if_true, hlast, Bool.true_and,
    decide_eq_true hstart, h]

theorem seekSequence_of_occurs (hpattern : pattern ≠ [])
    (hstart : start ≤ i) (hi : OccursAt lines pattern i)
    (hleast : ∀ j, start ≤ j → j < i → ¬ OccursAt lines pattern j) :
    let result := seekSequence m lines pattern start eof allowFuzzy
    result.index = some (foundIndex m lines pattern eof allowFuzzy i) ∧
      result.isAmbiguous = false ∧ result.strategy ≠ some .fuzzyDominant := by
  have hlength : pattern.length ≤ lines.length := by
    have := hi.1
    omega
  have hfirst := runExactPasses_of_occurs m allowFuzzy hlength hstart hi hleast
  intro result
  cases eof with
  | false =>
    have hresult : result = ⟨some i, none, none, some .exact⟩ :=
      seekSequence_of_passes m hpattern hlength hfirst
    rw [hresult, foundIndex, if_neg (fun h => Bool.false_ne_true h.1)]
    exact ⟨rfl, rfl, by simp⟩
  | true =>
    by_cases hlast : MatchesSomehow m lines pattern allowFuzzy (lines.length - pattern.length)
    · obtain ⟨found, hfound, hindex, hambiguous, hstrategy⟩ := runExactPasses_single m hlast
      have hresult : result = found := seekSequence_of_passes m hpattern hlength hfound
      rw [hresult, foundIndex, if_pos ⟨rfl, hlast⟩]
      exact ⟨hindex, hambiguous, hstrategy⟩
    · have hnone : runExactPasses m lines pattern allowFuzzy (lines.length - pattern.length)
          (lines.length - pattern.length) = none := by
        rw [runExactPasses_eq_none_iff]
        intro j hj hj'
        rwa [show j = lines.length - pattern.length from by omega]
      -- the occurrence is not at the end, so the cursor is before the end as well
      have hne : i ≠ lines.length - pattern.length := by
        rintro rfl
        exact hlast (.inl ⟨_, mem_cons_self, (matchesAt_eq_iff hi.1).mpr hi⟩)
      have hbefore : start < lines.length - pattern.length := by
        have := hi.1
        omega
      have hresult : result = ⟨some i, none, none, some .exact⟩ :=
        seekSequence_of_fromStart m hpattern hbefore hnone hfirst
      rw [hresult, foundIndex, if_neg (fun h => hlast h.2)]
      exact ⟨rfl, rfl, by simp⟩

/-- A result that is conclusive and not ambiguous is taken as it is, whatever the hint. -/
theorem findSequenceWithHint_eq {currentIndex found : Nat}
    (hindex : (seekSequence m lines pattern currentIndex eof allowFuzzy).index = some found)
    (hambiguous : (seekSequence m lines pattern currentIndex eof allowFuzzy).isAmbiguous = false)
    (hintIndex : Option Nat) :
    findSequenceWithHint m lines pattern currentIndex hintIndex eof allowFuzzy =
      seekSequence m lines pattern currentIndex eof allowFuzzy := by
  have hconclusive :
      (seekSequence m lines pattern currentIndex eof allowFuzzy).isConclusive = true := by
    rw [SearchResult.isConclusive, hindex]
    rfl
  simp only [findSequenceWithHint, hambiguous, Bool.false_eq_true, if_false, hconclusive, if_true]

end GajaeCode.PatchEdit
