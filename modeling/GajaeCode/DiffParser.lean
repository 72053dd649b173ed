import GajaeCode.PatchHunks

/-! # Parsing a diff

`parseDiffHunks` of `packages/coding-agent/src/edit/diff.ts` reads the hunks of a diff that a
model has written.  It is lenient: wrappers, file headers and gap markers are dropped, and line
numbers in front of the lines are taken off.  What is dropped is recognised by how a line looks,
so the text of a hunk is kept exactly unless it looks like one of these
(`parseDiffHunks_body`).
-/
namespace GajaeCode.PatchEdit
open JsString FuzzyText List
variable {header : JsString}

/-- `+` -/
def PLUS : CodeUnit := 0x002b

/-- `-` -/
def MINUS : CodeUnit := 0x002d

def diffMetadataPrefixes : List JsString :=
  [js "*** Update File:", js "*** Add File:", js "*** Delete File:", js "diff --git ",
    js "index ", js "--- ", js "+++ ", js "new file mode ", js "deleted file mode ",
    js "rename from ", js "rename to ", js "similarity index ", js "dissimilarity index ",
    js "old mode ", js "new mode "]

def multiFileMarkers : List JsString :=
  [js "*** Update File:", js "*** Add File:", js "*** Delete File:", js "diff --git "]

def patchWrapperPrefixes : List JsString := [js "*** Begin Patch", js "*** End Patch"]

def eofMarker : JsString := js "*** End of File"

variable (line : JsString)

def matchesTrimmedPrefix (starts : List JsString) : Bool :=
  starts.any fun start => start.isPrefixOf line

/-- `isDiffContentLine`: what looks like a file header is no content. -/
def isDiffContentLine : Bool :=
  match line with
  | [] => false
  | first :: _ =>
      if first = SPACE then true
      else if first = PLUS then !(js "+++ ").isPrefixOf line
      else if first = MINUS then !(js "--- ").isPrefixOf line
      else false

def isPatchWrapperLine : Bool :=
  line == js "***" || matchesTrimmedPrefix line patchWrapperPrefixes

def isUnifiedDiffMetadataLine : Bool :=
  matchesTrimmedPrefix line (diffMetadataPrefixes.filter fun start => !(js "*** ").isPrefixOf start)

/-! ## `normalizeDiff` -/

/-- Blank lines at the end. -/
def isTrailing : Bool :=
  line == [] || (trim line == [] && !isDiffContentLine line)

def dropWrapper (lines : List JsString) : List JsString :=
  let isWrapper (line : JsString) : Bool := isPatchWrapperLine (trim line)
  let lines := if lines.head?.any isWrapper then lines.tail else lines
  if lines.getLast?.any isWrapper then lines.dropLast else lines

/-- What is left of the lines in the end. -/
def isKept : Bool :=
  isDiffContentLine line || !matchesTrimmedPrefix (trim line) diffMetadataPrefixes

def normalizeDiff (diff : JsString) : JsString :=
  unlines ((dropWrapper ((lines diff).rdropWhile isTrailing)).filter isKept)

/-! ## Headers -/

structure ParseError where
  message : JsString
  lineNumber : Nat
deriving DecidableEq

/-- What a regular expression has left to match after a word. -/
def afterWord (word text : JsString) : Option JsString :=
  if word.isPrefixOf text then some (text.drop word.length) else none

/-- `\d+`: the number, and what is left. -/
def afterDigits (text : JsString) : Option (Nat × JsString) :=
  if (text.takeWhile isDigit).isEmpty then none
  else some (parseNat text, text.dropWhile isDigit)

/-- `\s+`. -/
def afterSpaces (text : JsString) : Option JsString :=
  if text.head?.any isWhitespace then some (trimStart text) else none

/-- `(?:,(\d+))?`: the count, one if there is none. -/
def afterCount (text : JsString) : Nat × JsString :=
  ((afterWord (js ",") text).bind afterDigits).getD (1, text)

/-- A unit that `.` does not match. -/
def isLineTerminator (u : CodeUnit) : Bool := u == LF || u == CR || u == 0x2028 || u == 0x2029

structure UnifiedHunkHeader where
  oldStartLine : Nat
  oldLineCount : Nat
  newStartLine : Nat
  newLineCount : Nat
  changeContext : Option JsString

def parseUnifiedHunkHeader : Option UnifiedHunkHeader := do
  let text ← afterWord (js "@@") line
  let text ← afterWord (js "-") (trimStart text)
  let (oldStartLine, text) ← afterDigits text
  let (oldLineCount, text) := afterCount text
  let text ← afterSpaces text
  let text ← afterWord (js "+") text
  let (newStartLine, text) ← afterDigits text
  let (newLineCount, text) := afterCount text
  let text ← afterWord (js "@@") (trimStart text)
  let context := trimStart text
  if context.any isLineTerminator then none
  else
    let changeContext := trim context
    some ⟨oldStartLine, oldLineCount, newStartLine, newLineCount,
      if changeContext.length > 0 then some changeContext else none⟩

def toLowerAscii (text : JsString) : JsString :=
  text.map fun u => if 0x0041 ≤ u && u ≤ 0x005a then u + 0x0020 else u

/-- `LINE_HINT_REGEX`: the first of its numbers. -/
def lineHint (text : JsString) : Option Nat := do
  let text ← afterWord (js "line") (toLowerAscii text)
  let text := (afterWord (js "s") text).getD text
  let text ← afterSpaces text
  let (line, text) ← afterDigits text
  let range : Option JsString := do
    let text ← afterWord (js "-") (trimStart text)
    let (_, text) ← afterDigits (trimStart text)
    some text
  let text := range.getD text
  let text := (afterWord (js "@@") (trimStart text)).getD text
  if text = [] then some line else none

/-- `TOP_OF_FILE_REGEX`. -/
def isTopOfFile (text : JsString) : Bool :=
  let text := toLowerAscii text
  let afterTop := ((afterWord (js "top") text).or (afterWord (js "start") text)).or
    (afterWord (js "beginning") text)
  let afterOf := ((afterTop.bind afterSpaces).bind (afterWord (js "of"))).bind afterSpaces
  afterOf.bind (afterWord (js "file")) == some []

structure HunkHeader where
  changeContexts : List JsString
  oldStartLine : Option Nat
  newStartLine : Option Nat

/-- The header line of a hunk, which starts with `@@`.  The checks of line numbers that follow
it in the source repeat the ones here. -/
def parseHunkHeader (headerLine : JsString) (lineNumber : Nat) :
    Except ParseError HunkHeader :=
  let headerTrimmed := trimEnd headerLine
  let isEmptyContextMarker :=
    (afterWord (js "@@") headerTrimmed).map trimStart == some (js "@@")
  if headerTrimmed = js "@@" ∨ isEmptyContextMarker then .ok ⟨[], none, none⟩
  else
    match parseUnifiedHunkHeader headerTrimmed with
    | some header =>
        if header.oldStartLine < 1 ∨ header.newStartLine < 1 then
          .error ⟨js "Line numbers in @@ header must be >= 1", lineNumber⟩
        else
          .ok ⟨header.changeContext.toList, some header.oldStartLine, some header.newStartLine⟩
    | none =>
      match afterWord (js "@@ ") headerTrimmed with
      | some contextValue =>
          let trimmedContextValue := trim contextValue
          let normalizedContextValue :=
            ((afterWord (js "@@") trimmedContextValue).map trimStart).getD trimmedContextValue
          match lineHint normalizedContextValue with
          | some line =>
              if line < 1 then .error ⟨js "Line hint must be >= 1", lineNumber⟩
              else .ok ⟨[], some line, some line⟩
          | none =>
              if isTopOfFile normalizedContextValue then .ok ⟨[], some 1, some 1⟩
              else if trimmedContextValue.length > 0 then .ok ⟨[contextValue], none, none⟩
              else .ok ⟨[], none, none⟩
      | none =>
          let contextValue := trim (headerTrimmed.drop 2)
          .ok ⟨if contextValue.length > 0 then [contextValue] else [], none, none⟩

/-- The headers nested in the first one: their contexts, and the lines after them. -/
def nestedContexts : List JsString → List JsString × List JsString
  | [] => ([], [])
  | line :: rest =>
      let trimmed := trimEnd line
      if !(js "@@").isPrefixOf line then ([], line :: rest)
      else
        match afterWord (js "@@ ") trimmed with
        | some nestedContext =>
            let (contexts, remaining) := nestedContexts rest
            (if (trim nestedContext).length > 0 then nestedContext :: contexts else contexts,
              remaining)
        | none => if trimmed = js "@@" then nestedContexts rest else ([], line :: rest)

/-- The variables of the loop over the lines. -/
structure HunkBody where
  hasContextLines : Bool
  oldLines : List JsString
  newLines : List JsString
  isEndOfFile : Bool
  parsedLines : Nat

/-- A marker for lines that are left out: three dots, or an ellipsis. -/
def isGap : Bool := trim line == js "..." || trim line == [0x2026]

def HunkBody.context (b : HunkBody) (content : JsString) : HunkBody :=
  { b with
    hasContextLines := true
    oldLines := b.oldLines ++ [content]
    newLines := b.newLines ++ [content]
    parsedLines := b.parsedLines + 1 }

def parseHunkLines (lineNumber : Nat) : List JsString → HunkBody → Except ParseError HunkBody
  | [], b => .ok b
  | line :: rest, b =>
      if line = [] ∧ 0 < b.parsedLines ∧
          (rest.head?.any fun next => (js "@@").isPrefixOf (trimStart next)) = true then .ok b
      else if !isDiffContentLine line && trimEnd line == eofMarker && eofMarker.isPrefixOf line then
        if b.parsedLines = 0 then
          .error ⟨js "Hunk does not contain any lines", lineNumber + 1⟩
        else .ok { b with isEndOfFile := true, parsedLines := b.parsedLines + 1 }
      else if isGap line then
        parseHunkLines lineNumber rest
          { b with hasContextLines := true, parsedLines := b.parsedLines + 1 }
      else
        match line with
        | [] => parseHunkLines lineNumber rest (b.context [])
        | first :: content =>
          if first = SPACE then parseHunkLines lineNumber rest (b.context content)
          else if first = PLUS then
            parseHunkLines lineNumber rest
              { b with newLines := b.newLines ++ [content], parsedLines := b.parsedLines + 1 }
          else if first = MINUS then
            parseHunkLines lineNumber rest
              { b with oldLines := b.oldLines ++ [content], parsedLines := b.parsedLines + 1 }
          else if !(js "@@").isPrefixOf (first :: content) then
            parseHunkLines lineNumber rest (b.context (first :: content))
          else if b.parsedLines = 0 then
            .error ⟨js "Unexpected line in hunk: '" ++ (first :: content ++
              (js "'. Lines must start with ' ' (context), " ++
                js "'+' (add), or '-' (remove)")), lineNumber + 1⟩
          else .ok b

/-- `/^\s*(\d{1,6})\s+(.+)$/u`: the number and what follows it.  What follows is the last of the
white space if there is nothing else. -/
def numberPrefix : Option (Nat × JsString) :=
  let text := trimStart line
  let digits := text.takeWhile isDigit
  let rest := text.dropWhile isDigit
  let spaces := rest.takeWhile isWhitespace
  let content := rest.dropWhile isWhitespace
  if digits = [] ∨ 6 < digits.length ∨ spaces = [] then none
  else if content ≠ [] then
    if content.any isLineTerminator then none else some (parseNat digits, content)
  else if spaces.length < 2 ∨ spaces.getLast?.any isLineTerminator = true then none
  else some (parseNat digits, spaces.getLast?.toList)

/-- How often a number is the one after the number before it. -/
def sequentialCount : List Nat → Nat
  | a :: b :: rest => (if b = a + 1 then 1 else 0) + sequentialCount (b :: rest)
  | _ => 0

/-- The lines look as if they were numbered: two or more and six tenths of them begin with a
number, and of three or more numbers all but two at most are the one after the number before
(the first is not). -/
def looksNumbered (oldLines newLines : List JsString) : Bool :=
  let allLines := (oldLines ++ newLines).filter fun line => !(trim line).isEmpty
  let numbers := (allLines.filterMap numberPrefix).map Prod.fst
  if allLines.length < 2 then false
  else if numbers.length < max 2 ((6 * allLines.length + 9) / 10) then false
  else if 3 ≤ numbers.length ∧ sequentialCount numbers < max 1 (numbers.length - 2) then false
  else true

/-- `strip`, inside `stripLineNumberPrefixes`. -/
def stripNumber : JsString := ((numberPrefix line).map Prod.snd).getD line

/-- `stripLineNumberPrefixes`, on the old and the new lines. -/
def stripLineNumberPrefixes (oldLines newLines : List JsString) :
    List JsString × List JsString :=
  if looksNumbered oldLines newLines then (oldLines.map stripNumber, newLines.map stripNumber)
  else (oldLines, newLines)

/-! ## Hunks -/

/-- `parseOneHunk`: the hunk and how many lines it takes. -/
def parseOneHunk (lines : List JsString) (lineNumber : Nat) (allowMissingContext : Bool) :
    Except ParseError (DiffHunk × Nat) := do
  let headerLine ←
    match lines with
    | [] => .error ⟨js "Diff does not contain any lines", lineNumber⟩
    | headerLine :: _ => .ok headerLine
  let (header, rest) ←
    if (js "@@").isPrefixOf headerLine then
      (parseHunkHeader headerLine lineNumber).map fun header => (header, lines.drop 1)
    else if allowMissingContext then .ok (⟨[], none, none⟩, lines)
    else
      .error ⟨js "Expected hunk to start with @@ " ++ (js "context marker, got: '" ++
        (headerLine ++ js "'")), lineNumber⟩
  let (nested, remaining) := nestedContexts rest
  let startIndex := lines.length - remaining.length
  if remaining = [] then .error ⟨js "Hunk does not contain any lines", lineNumber + 1⟩
  let body ← parseHunkLines lineNumber remaining ⟨false, [], [], false, 0⟩
  if body.parsedLines = 0 then
    .error ⟨js "Hunk does not contain any lines", lineNumber + startIndex⟩
  let changeContexts := header.changeContexts ++ nested
  let (oldLines, newLines) := stripLineNumberPrefixes body.oldLines body.newLines
  .ok ({
    changeContext := if changeContexts = [] then none else some (unlines changeContexts)
    oldStartLine := header.oldStartLine
    newStartLine := header.newStartLine
    hasContextLines := body.hasContextLines
    oldLines
    newLines
    isEndOfFile := body.isEndOfFile }, body.parsedLines + startIndex)

def extractMarkerPath : Option JsString :=
  if (js "diff --git ").isPrefixOf line then
    let parts := line.splitOnP isWhitespace |>.filter fun part => !part.isEmpty
    (parts[3]?.or parts[2]?).map fun candidate =>
      if (js "a/").isPrefixOf candidate || (js "b/").isPrefixOf candidate then candidate.drop 2
      else candidate
  else
    (multiFileMarkers.findSome? fun marker => afterWord marker line).map trim

def countMultiFileMarkers (diff : JsString) : Nat :=
  let marked := ((lines diff).filter fun line => !isDiffContentLine line).map trim |>.filter
    fun trimmed => matchesTrimmedPrefix trimmed multiFileMarkers
  let paths := (marked.filterMap extractMarkerPath).filter fun path => !path.isEmpty
  if paths ≠ [] then paths.dedup.length
  else
    (multiFileMarkers.map fun marker => marked.countP fun line => marker.isPrefixOf line).foldl
      max 0

/-- What `parseDiffHunks` throws. -/
inductive DiffError where
  | multiFile (count : Nat)
  | parse (error : ParseError)
deriving DecidableEq

/-- The loop of `parseDiffHunks` from the line with the index on.  A hunk takes a line at least,
so there are no more iterations than lines. -/
def parseHunksFrom : (fuel : Nat) → (index : Nat) → List JsString →
    Except ParseError (List DiffHunk)
  | 0, _, _ => .ok []
  | _, _, [] => .ok []
  | fuel + 1, index, line :: rest =>
      let trimmed := trim line
      let isDiffContent := line.head?.any fun first => first == SPACE || first == PLUS ||
        first == MINUS
      if trimmed = [] then parseHunksFrom fuel (index + 1) rest
      else if !isDiffContent && isUnifiedDiffMetadataLine trimmed then
        parseHunksFrom fuel (index + 1) rest
      else if (js "@@").isPrefixOf trimmed && rest.all fun next => trim next == [] then .ok []
      else do
        let (hunk, linesConsumed) ← parseOneHunk (line :: rest) (index + 1) true
        let hunks ← parseHunksFrom fuel (index + linesConsumed) ((line :: rest).drop linesConsumed)
        .ok (hunk :: hunks)

def parseDiffHunks (diff : JsString) : Except DiffError (List DiffHunk) :=
  if 1 < countMultiFileMarkers diff then .error (.multiFile (countMultiFileMarkers diff))
  else
    let lines := JsString.lines (normalizeDiff diff)
    (parseHunksFrom lines.length 0 lines).mapError .parse

/-- What a line of a hunk is. -/
inductive Mark where
  | context | added | removed
deriving DecidableEq

def Mark.unit : Mark → CodeUnit
  | .context => SPACE
  | .added => PLUS
  | .removed => MINUS

structure DiffLine where
  mark : Mark
  content : JsString
deriving DecidableEq

def DiffLine.text (l : DiffLine) : JsString := l.mark.unit :: l.content

/-- The contents of the lines that are in the old text. -/
def oldContents (body : List DiffLine) : List JsString :=
  (body.filter fun l => l.mark ≠ .added).map DiffLine.content

/-- The contents of the lines that are in the new text. -/
def newContents (body : List DiffLine) : List JsString :=
  (body.filter fun l => l.mark ≠ .removed).map DiffLine.content

/-- The line looks like one of a file header: `+++ ` or `--- ` and some text. -/
def DiffLine.isFileHeader (l : DiffLine) : Bool := !isKept l.text

theorem trimEnd_cons {u : CodeUnit} (hu : isWhitespace u = false) (text : JsString) :
    trimEnd (u :: text) = u :: trimEnd text := by
  induction text using reverseRecOn with
  | nil =>
    rw [← nil_append [u], trimEnd_concat_of_neg (by rw [hu]; exact Bool.false_ne_true)]
    rfl
  | append_singleton text v ih =>
    rw [← cons_append]
    by_cases hv : isWhitespace v = true
    · rw [trimEnd_concat_of_pos hv, trimEnd_concat_of_pos hv, ih]
    · rw [trimEnd_concat_of_neg hv, trimEnd_concat_of_neg hv, cons_append]

theorem trim_cons {u : CodeUnit} (hu : isWhitespace u = false) (text : JsString) :
    trim (u :: text) = u :: trimEnd text := by
  rw [trim, trimStart, dropWhile_cons_of_neg (by rw [hu]; exact Bool.false_ne_true),
    trimEnd_cons hu]

/-- A line does not begin with any of the words if none of them begins with its first unit. -/
theorem matchesTrimmedPrefix_cons {u : CodeUnit} {starts : List JsString}
    (h : starts.all (fun start => start.head?.any (· != u)) = true) (text : JsString) :
    matchesTrimmedPrefix (u :: text) starts = false := by
  rw [matchesTrimmedPrefix, any_eq_false]
  intro start hstart
  have hhead := all_eq_true.mp h start hstart
  cases start with
  | nil => cases hhead
  | cons v word =>
    have hne : (v == u) = false := bne_iff_ne.mp hhead |> beq_false_of_ne
    rw [isPrefixOf_cons_cons, hne, Bool.false_and]
    exact Bool.false_ne_true

/-! ## Headers and marked lines are not trimmed away -/

theorem trim_header (h : js "@@" <+: header) :
    ∃ rest, header = 0x40 :: rest ∧ ∃ rest', trim header = 0x40 :: rest' ∧
      (js "@@").isPrefixOf (trim header) = true := by
  obtain ⟨rest, rfl⟩ := h
  refine ⟨0x40 :: rest, rfl, 0x40 :: trimEnd rest, ?_, ?_⟩
  · show trim (0x40 :: 0x40 :: rest) = _
    rw [trim_cons rfl, trimEnd_cons rfl]
  · show (js "@@").isPrefixOf (trim (0x40 :: 0x40 :: rest)) = true
    rw [trim_cons rfl, trimEnd_cons rfl, isPrefixOf_iff_prefix]
    exact ⟨trimEnd rest, rfl⟩

theorem isTrailing_header (h : js "@@" <+: header) : isTrailing header = false := by
  obtain ⟨rest, rfl, rest', htrim, -⟩ := trim_header h
  rw [isTrailing, htrim]
  rfl

theorem isTrailing_text (l : DiffLine) : isTrailing l.text = false := by
  obtain ⟨mark, content⟩ := l
  cases mark with
  | context =>
    show (false || (trim (SPACE :: content) == [] && false)) = false
    rw [Bool.and_false, Bool.or_false]
  | added =>
    have htrim : trim (PLUS :: content) = PLUS :: trimEnd content := trim_cons rfl content
    show (false || (trim (PLUS :: content) == [] && _)) = false
    rw [htrim]
    rfl
  | removed =>
    have htrim : trim (MINUS :: content) = MINUS :: trimEnd content := trim_cons rfl content
    show (false || (trim (MINUS :: content) == [] && _)) = false
    rw [htrim]
    rfl

/-- The lines under a header that `normalizeDiff` keeps. -/
def keptLines (body : List DiffLine) : List DiffLine := body.filter fun l => !l.isFileHeader

theorem isKept_header (h : js "@@" <+: header) : isKept header = true := by
  obtain ⟨rest, -, rest', htrim, -⟩ := trim_header h
  have hmatch : matchesTrimmedPrefix (trim header) diffMetadataPrefixes = false := by
    rw [htrim]
    exact matchesTrimmedPrefix_cons rfl rest'
  rw [isKept, hmatch, Bool.not_false, Bool.or_true]

theorem isPatchWrapperLine_header (h : js "@@" <+: header) :
    isPatchWrapperLine (trim header) = false := by
  obtain ⟨rest, -, rest', htrim, -⟩ := trim_header h
  rw [isPatchWrapperLine, htrim, matchesTrimmedPrefix_cons rfl]
  rfl

variable {body : List DiffLine}

theorem lines_body (hLF : LF ∉ header) (hbody : ∀ l ∈ body, LF ∉ l.content) :
    lines (unlines (header :: body.map DiffLine.text)) = header :: body.map DiffLine.text := by
  refine lines_unlines (cons_ne_nil _ _) fun line hline => ?_
  rcases mem_cons.mp hline with rfl | hline
  · exact hLF
  · obtain ⟨⟨mark, content⟩, hl, rfl⟩ := mem_map.mp hline
    intro hmem
    rcases mem_cons.mp hmem with heq | hmem
    · cases mark <;> cases heq
    · exact hbody _ hl hmem

/-- Under a header, only the lines that look like file headers are dropped. -/
theorem lines_normalizeDiff (hheader : js "@@" <+: header) (hLF : LF ∉ header)
    (hbody : ∀ l ∈ body, LF ∉ l.content)
    (hlast : ∀ l ∈ body.getLast?, isPatchWrapperLine (trim l.text) = false) :
    lines (normalizeDiff (unlines (header :: body.map DiffLine.text))) =
      header :: (keptLines body).map DiffLine.text := by
  have hwhole : (header :: body.map DiffLine.text).rdropWhile isTrailing =
      header :: body.map DiffLine.text := by
    rw [rdropWhile_eq_self_iff]
    intro hne
    have hmem := getLast_mem hne
    generalize (header :: body.map DiffLine.text).getLast hne = line at hmem
    rcases mem_cons.mp hmem with rfl | hmem
    · rw [isTrailing_header hheader]
      exact Bool.false_ne_true
    · obtain ⟨l, -, rfl⟩ := mem_map.mp hmem
      rw [isTrailing_text]
      exact Bool.false_ne_true
  have hwrapper : dropWrapper (header :: body.map DiffLine.text) =
      header :: body.map DiffLine.text := by
    have hfront : ¬ (header :: body.map DiffLine.text).head?.any
        (fun line => isPatchWrapperLine (trim line)) = true := by
      rw [head?_cons, Option.any_some, isPatchWrapperLine_header hheader]
      exact Bool.false_ne_true
    have hback : ¬ (header :: body.map DiffLine.text).getLast?.any
        (fun line => isPatchWrapperLine (trim line)) = true := by
      rw [Bool.not_eq_true]
      rcases eq_nil_or_concat body with rfl | ⟨front, last, rfl⟩
      · exact isPatchWrapperLine_header hheader
      · rw [concat_eq_append, map_append, ← cons_append, map_singleton,
          getLast?_concat]
        refine hlast last ?_
        rw [concat_eq_append, getLast?_concat]
        rfl
    rw [dropWrapper, if_neg hfront, if_neg hback]
  have hkept : (header :: body.map DiffLine.text).filter isKept =
      header :: (keptLines body).map DiffLine.text := by
    rw [filter_cons_of_pos (isKept_header hheader), filter_map, keptLines]
    simp only [Function.comp_def, DiffLine.isFileHeader, Bool.not_not]
  rw [normalizeDiff, lines_body hLF hbody, hwhole, hwrapper, hkept]
  exact lines_body hLF fun l hl => hbody l (mem_of_mem_filter hl)

theorem trim_text_of_not_content {l : DiffLine} (h : isDiffContentLine l.text = false) :
    ∃ rest, trim l.text = l.mark.unit :: rest ∧ l.mark ≠ .context := by
  obtain ⟨mark, content⟩ := l
  cases mark with
  | context => cases h
  | added | removed => exact ⟨_, trim_cons rfl content, Mark.noConfusion⟩

theorem countMultiFileMarkers_body (hheader : js "@@" <+: header) (hLF : LF ∉ header)
    (hbody : ∀ l ∈ body, LF ∉ l.content) :
    countMultiFileMarkers (unlines (header :: body.map DiffLine.text)) = 0 := by
  have hmarked : (((header :: body.map DiffLine.text).filter
      fun line => !isDiffContentLine line).map trim).filter
        (fun trimmed => matchesTrimmedPrefix trimmed multiFileMarkers) = [] := by
    rw [filter_eq_nil_iff]
    intro trimmed htrimmed
    obtain ⟨line, hline, rfl⟩ := mem_map.mp htrimmed
    obtain ⟨hline, hcontent⟩ := mem_filter.mp hline
    rcases mem_cons.mp hline with rfl | hline
    · obtain ⟨rest, -, rest', htrim, -⟩ := trim_header hheader
      rw [htrim, matchesTrimmedPrefix_cons rfl]
      exact Bool.false_ne_true
    · obtain ⟨l, -, rfl⟩ := mem_map.mp hline
      obtain ⟨rest, htrim, hmark⟩ := trim_text_of_not_content (by simpa using hcontent)
      rw [htrim]
      obtain ⟨mark, content⟩ := l
      cases mark with
      | context => exact absurd rfl hmark
      | added =>
        rw [matchesTrimmedPrefix_cons rfl]
        exact Bool.false_ne_true
      | removed =>
        rw [matchesTrimmedPrefix_cons rfl]
        exact Bool.false_ne_true
  rw [countMultiFileMarkers, lines_body hLF hbody, hmarked]
  rfl

/-- A context line that stands for lines that are left out. -/
def DiffLine.isGap (l : DiffLine) : Bool := PatchEdit.isGap l.text

theorem mark_of_isGap {l : DiffLine} (h : l.isGap = true) : l.mark = .context := by
  obtain ⟨mark, content⟩ := l
  cases mark with
  | context => rfl
  | added =>
    have htrim : trim (PLUS :: content) = PLUS :: trimEnd content := trim_cons rfl content
    have hgap : (trim (PLUS :: content) == js "..." || trim (PLUS :: content) == [0x2026]) =
      true := h
    rw [htrim] at hgap
    cases hgap
  | removed =>
    have htrim : trim (MINUS :: content) = MINUS :: trimEnd content := trim_cons rfl content
    have hgap : (trim (MINUS :: content) == js "..." || trim (MINUS :: content) == [0x2026]) =
      true := h
    rw [htrim] at hgap
    cases hgap

/-- The lines of a hunk that are not left out. -/
def writtenLines (body : List DiffLine) : List DiffLine := body.filter fun l => !l.isGap

theorem parseHunkLines_body (lineNumber : Nat) (body : List DiffLine) (b : HunkBody) :
    parseHunkLines lineNumber (body.map DiffLine.text) b = .ok {
      hasContextLines := b.hasContextLines || body.any fun l => l.mark = .context
      oldLines := b.oldLines ++ oldContents (writtenLines body)
      newLines := b.newLines ++ newContents (writtenLines body)
      isEndOfFile := b.isEndOfFile
      parsedLines := b.parsedLines + body.length } := by
  induction body generalizing b with
  | nil => simp [parseHunkLines, writtenLines, oldContents, newContents]
  | cons l body ih =>
    have hne : ¬ (l.text = [] ∧ 0 < b.parsedLines ∧ (body.map DiffLine.text).head?.any
        (fun next => (js "@@").isPrefixOf (trimStart next)) = true) :=
      fun h => cons_ne_nil _ _ h.1
    have heof : ¬ (!isDiffContentLine l.text && trimEnd l.text == eofMarker &&
        eofMarker.isPrefixOf l.text) = true := by
      have hmark : eofMarker.isPrefixOf l.text = false := by
        obtain ⟨mark, content⟩ := l
        cases mark <;> rfl
      rw [hmark, Bool.and_false]
      exact Bool.false_ne_true
    have hcount : b.parsedLines + 1 + body.length = b.parsedLines + (body.length + 1) := by omega
    rw [map_cons, parseHunkLines.eq_def]
    dsimp only
    rw [if_neg hne, if_neg heof]
    by_cases hgap : PatchEdit.isGap l.text = true
    · rw [if_pos hgap, ih]
      have hwritten : writtenLines (l :: body) = writtenLines body :=
        filter_cons_of_neg (by rw [DiffLine.isGap, hgap]; exact Bool.false_ne_true)
      have hmark : l.mark = .context := mark_of_isGap hgap
      rw [hwritten]
      simp [hmark, hcount]
    · rw [if_neg hgap]
      have hwritten : writtenLines (l :: body) = l :: writtenLines body :=
        filter_cons_of_pos (by rw [DiffLine.isGap, Bool.not_eq_true _ |>.mp hgap]; rfl)
      rw [hwritten]
      obtain ⟨mark, content⟩ := l
      cases mark with
      | context =>
        show parseHunkLines lineNumber (body.map DiffLine.text) (b.context content) = _
        rw [ih]
        simp [HunkBody.context, oldContents, newContents, hcount]
      | added =>
        show parseHunkLines lineNumber (body.map DiffLine.text)
          { b with newLines := b.newLines ++ [content], parsedLines := b.parsedLines + 1 } = _
        rw [ih]
        simp [oldContents, newContents, hcount]
      | removed =>
        show parseHunkLines lineNumber (body.map DiffLine.text)
          { b with oldLines := b.oldLines ++ [content], parsedLines := b.parsedLines + 1 } = _
        rw [ih]
        simp [oldContents, newContents, hcount]

/-! ## Line numbers

What `stripLineNumberPrefixes` asks of the lines and does to them, in terms of how the lines are
made up. -/

/-- The line begins with a number: white space, one to six digits, white space, and the rest of
the line, which begins with white space only if it is one unit. -/
def Numbered (number : Nat) (content : JsString) : Prop :=
  ∃ indent digits gap, line = indent ++ (digits ++ (gap ++ content)) ∧
    (∀ u ∈ indent, isWhitespace u = true) ∧ (∀ u ∈ digits, isDigit u = true) ∧
    digits ≠ [] ∧ digits.length ≤ 6 ∧ (∀ u ∈ gap, isWhitespace u = true) ∧ gap ≠ [] ∧
    content ≠ [] ∧ (∀ u ∈ content, isLineTerminator u = false) ∧
    (∀ u ∈ content.head?, isWhitespace u = true → content = [u]) ∧ number = parseNat digits

theorem isWhitespace_of_isDigit {u : CodeUnit} (h : isDigit u = true) : isWhitespace u = false := by
  rw [Bool.eq_false_iff]
  intro hspace
  simp only [isDigit, isWhitespace, Bool.or_eq_true, Bool.and_eq_true, decide_eq_true_eq, beq_iff_eq,
    UInt16.le_iff_toNat_le, UInt16.reduceToNat, ← UInt16.toNat_inj] at h hspace
  omega

theorem span_append {p : CodeUnit → Bool} {l r : JsString} (hl : ∀ u ∈ l, p u = true)
    (hr : ∀ u ∈ r.head?, p u = false) :
    (l ++ r).takeWhile p = l ∧ (l ++ r).dropWhile p = r := by
  rw [takeWhile_append_of_pos hl, dropWhile_append_of_pos hl]
  cases r with
  | nil => exact ⟨append_nil _, rfl⟩
  | cons u r =>
    have hu : ¬ p u = true := by simp [hr u rfl]
    rw [takeWhile_cons_of_neg hu, dropWhile_cons_of_neg hu, append_nil]
    exact ⟨rfl, rfl⟩

theorem Numbered.eq_some {line content : JsString} {number : Nat}
    (h : Numbered line number content) : numberPrefix line = some (number, content) := by
  obtain ⟨indent, digits, gap, rfl, hindent, hdigits, hne, hsix, hgap, hgapNe, hcontent, hline,
    hhead, rfl⟩ := h
  obtain ⟨d, ds, rfl⟩ := exists_cons_of_ne_nil hne
  obtain ⟨g, gs, rfl⟩ := exists_cons_of_ne_nil hgapNe
  have hg : isDigit g = false := by
    by_contra hdigit
    have := isWhitespace_of_isDigit (Bool.not_eq_false _ ▸ hdigit)
    rw [hgap g mem_cons_self] at this
    cases this
  have hstart := (span_append (r := d :: ds ++ (g :: gs ++ content)) hindent (by
    rintro u ⟨⟩
    exact isWhitespace_of_isDigit (hdigits d mem_cons_self))).2
  obtain ⟨htake, hdrop⟩ := span_append (r := g :: gs ++ content) hdigits (by rintro u ⟨⟩; exact hg)
  unfold numberPrefix
  rw [trimStart, hstart]
  dsimp only
  rw [htake, hdrop]
  obtain ⟨c, cs, rfl⟩ := exists_cons_of_ne_nil hcontent
  cases hblank : isWhitespace c with
  | false =>
    obtain ⟨hspaces, hrest⟩ := span_append (r := c :: cs) hgap (by rintro u ⟨⟩; exact hblank)
    have hnone : (c :: cs).any isLineTerminator = false := by
      rw [any_eq_false]
      exact fun u hu => by simp [hline u hu]
    rw [hspaces, hrest, if_neg (by simpa using hsix), if_pos (cons_ne_nil _ _), hnone]
    rfl
  | true =>
    -- there is only white space behind the number: the last of it is the content
    obtain rfl : cs = [] := (cons.inj (hhead c rfl hblank)).2
    obtain ⟨hspaces, hrest⟩ := span_append (p := isWhitespace) (l := g :: gs ++ [c]) (r := [])
      (by
        rintro u hu
        rcases mem_append.mp hu with hu | hu
        · exact hgap u hu
        · exact mem_singleton.mp hu ▸ hblank) (by rintro u ⟨⟩)
    rw [append_nil] at hspaces hrest
    have hlast : (g :: gs ++ [c]).getLast? = some c := getLast?_concat
    have hnone : ¬ ((g :: gs ++ [c]).length < 2 ∨ (some c).any isLineTerminator = true) := by
      simp [hline c mem_cons_self]
    rw [hspaces, hrest, if_neg (by simpa using hsix), if_neg (not_not_intro rfl), hlast, if_neg hnone]
    rfl

theorem numbered_of_numberPrefix {line content : JsString} {number : Nat}
    (h : numberPrefix line = some (number, content)) : Numbered line number content := by
  unfold numberPrefix at h
  dsimp only at h
  set rest := (trimStart line).dropWhile isDigit with hrest
  have hline : line = line.takeWhile isWhitespace ++
      ((trimStart line).takeWhile isDigit ++
        (rest.takeWhile isWhitespace ++ rest.dropWhile isWhitespace)) := by
    rw [takeWhile_append_dropWhile, hrest, takeWhile_append_dropWhile, trimStart,
      takeWhile_append_dropWhile]
  have htake {p : CodeUnit → Bool} {xs : JsString} : ∀ u ∈ xs.takeWhile p, p u = true :=
    fun u hu => mem_takeWhile_imp hu
  split at h
  case isTrue => cases h
  case isFalse hcond =>
    obtain ⟨hdigits, hsix, hspaces⟩ := by simpa only [not_or] using hcond
    split at h
    case isTrue hcontent =>
      split at h
      case isTrue => cases h
      case isFalse hterm =>
        cases h
        refine ⟨_, _, _, hline, htake, htake, hdigits, Nat.le_of_not_lt hsix, htake, hspaces,
          hcontent, ?_, ?_, rfl⟩
        · intro u hu
          by_contra hu'
          exact hterm (any_eq_true.mpr ⟨u, hu, by simpa using hu'⟩)
        · intro u hu hblank
          have := head?_dropWhile_not isWhitespace rest
          rw [Option.mem_def.mp hu] at this
          simp [hblank] at this
    case isFalse hcontent =>
      split at h
      case isTrue => cases h
      case isFalse hlast =>
        obtain ⟨htwo, hterm⟩ := not_or.mp hlast
        cases h
        obtain ⟨front, u, hfront⟩ := (eq_nil_or_concat (rest.takeWhile isWhitespace)).resolve_left hspaces
        rw [concat_eq_append] at hfront
        have hall : ∀ v ∈ front ++ [u], isWhitespace v = true := hfront ▸ htake
        rw [not_not.mp hcontent, hfront, append_nil] at hline
        rw [hfront, getLast?_concat] at hterm ⊢
        refine ⟨_, _, front, hline, htake, htake, hdigits, Nat.le_of_not_lt hsix,
          fun v hv => hall v (mem_append_left _ hv), ?_, cons_ne_nil _ _, ?_, ?_, rfl⟩
        · rintro rfl
          rw [hfront] at htwo
          exact htwo (by simp)
        · rintro v hv
          rw [mem_singleton.mp hv]
          simpa using hterm
        · rintro v ⟨⟩ _
          rfl

/-- The numbers with which lines begin, in order. -/
inductive Numbers : List JsString → List Nat → Prop
  | nil : Numbers [] []
  | numbered {line content : JsString} {number : Nat} {lines : List JsString} {numbers : List Nat} :
      Numbered line number content → Numbers lines numbers →
        Numbers (line :: lines) (number :: numbers)
  | plain {line : JsString} {lines : List JsString} {numbers : List Nat} :
      (∀ number content, ¬ Numbered line number content) → Numbers lines numbers →
        Numbers (line :: lines) numbers

/-- How often a number is not the one after the number before it. -/
def breaks (numbers : List Nat) : Nat :=
  (numbers.zip numbers.tail).countP fun p => p.2 ≠ p.1 + 1

/-- What makes lines look numbered: of those that are not blank two or more and at least six
tenths begin with a number, and of three or more numbers one at most, the first apart, is not
the one after the number before it. -/
def LooksNumbered (oldLines newLines : List JsString) : Prop :=
  ∃ numbers, Numbers ((oldLines ++ newLines).filter fun line => trim line ≠ []) numbers ∧
    2 ≤ numbers.length ∧
    6 * ((oldLines ++ newLines).filter fun line => trim line ≠ []).length ≤ 10 * numbers.length ∧
    (3 ≤ numbers.length → breaks numbers ≤ 1)

/-- The line without its number, if it has one. -/
def Unnumbered (line stripped : JsString) : Prop :=
  (∃ number, Numbered line number stripped) ∨
    stripped = line ∧ ∀ number content, ¬ Numbered line number content

theorem numbers_iff {lines : List JsString} {numbers : List Nat} :
    Numbers lines numbers ↔ (lines.filterMap numberPrefix).map Prod.fst = numbers := by
  constructor
  · intro h
    induction h with
    | nil => rfl
    | numbered hline _ ih => rw [filterMap_cons_some hline.eq_some, map_cons, ih]
    | plain hline _ ih =>
      rw [filterMap_cons_none ?_, ih]
      exact Option.eq_none_iff_forall_not_mem.mpr fun p hp =>
        hline p.1 p.2 (numbered_of_numberPrefix hp)
  · rintro rfl
    induction lines with
    | nil => exact .nil
    | cons line lines ih =>
      cases hline : numberPrefix line with
      | none =>
        rw [filterMap_cons_none hline]
        refine .plain (fun number content h => ?_) ih
        rw [h.eq_some] at hline
        cases hline
      | some p =>
        rw [filterMap_cons_some hline]
        exact .numbered (numbered_of_numberPrefix hline) ih

theorem sequentialCount_add_breaks (numbers : List Nat) :
    sequentialCount numbers + breaks numbers = numbers.length - 1 := by
  induction numbers with
  | nil => rfl
  | cons a numbers ih =>
    cases numbers with
    | nil => rfl
    | cons b numbers =>
      have hbreaks : breaks (a :: b :: numbers) =
          breaks (b :: numbers) + if b = a + 1 then 0 else 1 := by
        simp only [breaks, tail_cons, zip_cons_cons, countP_cons]
        by_cases h : b = a + 1 <;> simp [h]
      rw [sequentialCount, hbreaks]
      simp only [length_cons, Nat.add_sub_cancel] at ih ⊢
      split <;> omega

theorem looksNumbered_iff (oldLines newLines : List JsString) :
    looksNumbered oldLines newLines = true ↔ LooksNumbered oldLines newLines := by
  have hfilter : ((oldLines ++ newLines).filter fun line => !(trim line).isEmpty) =
      (oldLines ++ newLines).filter fun line => trim line ≠ [] :=
    filter_congr fun line _ => by cases trim line <;> rfl
  simp only [looksNumbered, LooksNumbered, numbers_iff, exists_eq_left', hfilter]
  generalize (oldLines ++ newLines).filter (fun line => trim line ≠ []) = lines
  have hle : ((lines.filterMap numberPrefix).map Prod.fst).length ≤ lines.length := by
    rw [length_map]
    exact length_filterMap_le _ _
  generalize (lines.filterMap numberPrefix).map Prod.fst = numbers at hle
  have hcount := sequentialCount_add_breaks numbers
  split_ifs <;> simp <;> omega

theorem unnumbered_stripNumber : Unnumbered line (stripNumber line) := by
  rw [stripNumber]
  cases hline : numberPrefix line with
  | none =>
    refine Or.inr ⟨rfl, fun number content h => ?_⟩
    rw [h.eq_some] at hline
    cases hline
  | some p => exact Or.inl ⟨p.1, numbered_of_numberPrefix hline⟩

theorem forall₂_unnumbered (lines : List JsString) :
    List.Forall₂ Unnumbered lines (lines.map stripNumber) :=
  forall₂_map_right_iff.mpr (forall₂_same.mpr fun line _ => unnumbered_stripNumber line)

/-! ## One hunk -/

/-- A line that `parseDiffHunks` takes for the header of a hunk. -/
def IsHunkHeader (header : JsString) : Prop :=
  js "@@" <+: header ∧ LF ∉ header ∧ (parseHunkHeader header 1).isOk = true

instance (header : JsString) : Decidable (IsHunkHeader header) :=
  inferInstanceAs (Decidable (_ ∧ _ ∧ _))

theorem nestedContexts_body :
    nestedContexts (body.map DiffLine.text) = ([], body.map DiffLine.text) := by
  cases body with
  | nil => rfl
  | cons l body =>
    have hmark : (js "@@").isPrefixOf l.text = false := by
      obtain ⟨mark, content⟩ := l
      cases mark <;> rfl
    rw [map_cons, nestedContexts, hmark]
    rfl

/-- A header and marked lines, one of them or more, are one hunk. -/
theorem parseOneHunk_body {hunkHeader : HunkHeader} {lineNumber : Nat} (hmark : js "@@" <+: header)
    (hheader : parseHunkHeader header lineNumber = .ok hunkHeader) (hne : body ≠ []) :
    parseOneHunk (header :: body.map DiffLine.text) lineNumber true = .ok ({
      changeContext :=
        if hunkHeader.changeContexts = [] then none else some (unlines hunkHeader.changeContexts)
      oldStartLine := hunkHeader.oldStartLine
      newStartLine := hunkHeader.newStartLine
      hasContextLines := body.any fun l => l.mark = .context
      oldLines := (stripLineNumberPrefixes (oldContents (writtenLines body))
        (newContents (writtenLines body))).1
      newLines := (stripLineNumberPrefixes (oldContents (writtenLines body))
        (newContents (writtenLines body))).2
      isEndOfFile := false }, body.length + 1) := by
  have hisPrefix : (js "@@").isPrefixOf header = true := isPrefixOf_iff_prefix.mpr hmark
  have hremaining : body.map DiffLine.text ≠ [] := fun h => hne (map_eq_nil_iff.mp h)
  have hlength : ¬ body.length = 0 := fun h => hne (length_eq_zero_iff.mp h)
  have hstart : (header :: body.map DiffLine.text).length -
      (body.map DiffLine.text).length = 1 := by
    rw [length_cons, Nat.add_sub_cancel_left]
  simp only [parseOneHunk, hisPrefix, if_true, hheader, Except.map, bind, Except.bind,
    drop_succ_cons, drop_zero, nestedContexts_body, if_neg hremaining,
    parseHunkLines_body, Nat.zero_add, if_neg hlength, hstart, append_nil, nil_append,
    Bool.false_or]

/-- A header after which there is a line that is not blank begins the only hunk if that hunk
takes all lines. -/
theorem parseHunksFrom_one {rest : List JsString} {hunk : DiffHunk} (hmark : js "@@" <+: header)
    (hfilled : ∃ line ∈ rest, trim line ≠ [])
    (hone : parseOneHunk (header :: rest) 1 true = .ok (hunk, rest.length + 1)) :
    parseHunksFrom (header :: rest).length 0 (header :: rest) = .ok [hunk] := by
  obtain ⟨first, hfirst, trimmed, htrim, hisPrefix⟩ := trim_header hmark
  have hne : trim header ≠ [] := htrim ▸ cons_ne_nil _ _
  have hmetadata : isUnifiedDiffMetadataLine (trim header) = false := by
    rw [isUnifiedDiffMetadataLine, htrim]
    exact matchesTrimmedPrefix_cons rfl trimmed
  have hmore : rest.all (fun next => trim next == []) = false := by
    obtain ⟨line, hline, hblank⟩ := hfilled
    rw [all_eq_false]
    exact ⟨line, hline, by rwa [beq_iff_eq]⟩
  have hnone : ∀ fuel index, parseHunksFrom fuel index [] = .ok [] := by
    intro fuel index
    cases fuel <;> rfl
  have hall : (header :: rest).drop (rest.length + 1) = [] := drop_length
  rw [length_cons, parseHunksFrom.eq_def]
  simp only [if_neg hne, hmetadata, Bool.and_false, Bool.false_eq_true, if_false, hmore,
    Nat.zero_add, hone, bind, Except.bind, hall, hnone]

/-- A header with marked lines under it is parsed as one hunk, with the contents of the lines
in order, without those that look like a file header or stand for lines that are left out.  If
these contents look numbered, each is there without its number. -/
theorem parseDiffHunks_body {header : JsString} (hheader : IsHunkHeader header)
    {body : List DiffLine} (hbody : ∀ l ∈ body, LF ∉ l.content)
    (hlast : ∀ l ∈ body.getLast?, isPatchWrapperLine (trim l.text) = false)
    (hfilled : ∃ l ∈ keptLines body, trim l.text ≠ []) :
    ∃ hunk, parseDiffHunks (unlines (header :: body.map DiffLine.text)) = .ok [hunk] ∧
      let oldLines := oldContents (writtenLines (keptLines body))
      let newLines := newContents (writtenLines (keptLines body))
      (¬ LooksNumbered oldLines newLines → hunk.oldLines = oldLines ∧ hunk.newLines = newLines) ∧
        (LooksNumbered oldLines newLines →
          List.Forall₂ Unnumbered oldLines hunk.oldLines ∧
            List.Forall₂ Unnumbered newLines hunk.newLines) := by
  obtain ⟨hmark, hLF, haccepted⟩ := hheader
  obtain ⟨l, hl, hblank⟩ := hfilled
  cases hparsed : parseHunkHeader header 1 with
  | error e =>
    rw [hparsed] at haccepted
    cases haccepted
  | ok hunkHeader =>
    obtain ⟨hunk, hone, hcontents⟩ : ∃ hunk,
        parseOneHunk (header :: (keptLines body).map DiffLine.text) 1 true =
          .ok (hunk, (keptLines body).length + 1) ∧
        (hunk.oldLines, hunk.newLines) =
          stripLineNumberPrefixes (oldContents (writtenLines (keptLines body)))
            (newContents (writtenLines (keptLines body))) :=
      ⟨_, parseOneHunk_body hmark hparsed (ne_nil_of_mem hl), rfl⟩
    refine ⟨hunk, ?_, fun hplain => ?_, fun hnumbered => ?_⟩
    · rw [parseDiffHunks, countMultiFileMarkers_body hmark hLF hbody, if_neg (Nat.not_lt_zero 1),
        lines_normalizeDiff hmark hLF hbody hlast]
      dsimp only
      rw [parseHunksFrom_one hmark ⟨l.text, mem_map_of_mem hl, hblank⟩
        (by rw [length_map]; exact hone)]
      rfl
    · rw [stripLineNumberPrefixes, if_neg (mt (looksNumbered_iff _ _).mp hplain)] at hcontents
      exact Prod.mk.inj hcontents
    · rw [stripLineNumberPrefixes, if_pos ((looksNumbered_iff _ _).mpr hnumbered)] at hcontents
      obtain ⟨hold, hnew⟩ := Prod.mk.inj hcontents
      rw [hold, hnew]
      exact ⟨forall₂_unnumbered _, forall₂_unnumbered _⟩

/-- A file header, a line that is kept and one that is added. -/
def addedBody : List DiffLine :=
  [⟨.added, js "++ b/src/a.ts"⟩, ⟨.context, js "a"⟩, ⟨.added, js "3 b"⟩]

/-- The header is dropped; one number is no numbering. -/
theorem parseDiffHunks_body_added :
    ∃ hunk, parseDiffHunks (unlines (js "@@ -1,1 +1,2 @@" :: addedBody.map DiffLine.text)) =
        .ok [hunk] ∧ hunk.oldLines = [js "a"] ∧ hunk.newLines = [js "a", js "3 b"] := by
  obtain ⟨hunk, hparsed, hplain, -⟩ :=
    parseDiffHunks_body (show IsHunkHeader (js "@@ -1,1 +1,2 @@") by decide)
      (show ∀ l ∈ addedBody, LF ∉ l.content by decide) (by decide) (by decide)
  refine ⟨hunk, hparsed, hplain fun h => ?_⟩
  exact absurd ((looksNumbered_iff _ _).mpr h) (by decide)

/-- The lines of an edit that changes a number at the start of a line. -/
def numberEdit : List DiffLine := [⟨.removed, js "2 eggs"⟩, ⟨.added, js "3 eggs"⟩]

/-- The numbers are taken for line numbers, and nothing of the edit is left. -/
theorem parseDiffHunks_drops_numbers :
    ¬ ∃ hunk, parseDiffHunks (unlines (js "@@" :: numberEdit.map DiffLine.text)) = .ok [hunk] ∧
      hunk.oldLines = oldContents numberEdit ∧ hunk.newLines = newContents numberEdit := by
  have hparsed : parseDiffHunks (unlines (js "@@" :: numberEdit.map DiffLine.text)) = .ok [{
      changeContext := none
      oldStartLine := none
      newStartLine := none
      hasContextLines := false
      oldLines := [js "eggs"]
      newLines := [js "eggs"]
      isEndOfFile := false }] := by decide
  rintro ⟨hunk, hhunk, hold, -⟩
  rw [hparsed] at hhunk
  cases hhunk
  exact absurd hold (by decide)

end GajaeCode.PatchEdit
