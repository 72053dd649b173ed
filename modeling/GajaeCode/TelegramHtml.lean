import GajaeCode.Delimiters
import GajaeCode.JsString

/-! # Markdown as Telegram HTML

`packages/coding-agent/src/sdk/bus/html-format.ts`: a bounded subset of markdown becomes
HTML that Telegram parses.  Code, tables and links are rendered first and replaced by
placeholders, the rest is escaped, lines become headers and quotes, paired markers become
tags, and the placeholders are restored.  The width of a text on the screen
(`Bun.stringWidth`) is a parameter.
-/
namespace GajaeCode
open JsString

namespace TelegramHtml

/-- `value.replace(/u/g, text)`. -/
def replaceUnit (u : CodeUnit) (text value : JsString) : JsString :=
  value.flatMap fun v => if v = u then text else [v]

def escapeHtml (value : JsString) : JsString :=
  replaceUnit 0x3e (js "&gt;") (replaceUnit 0x3c (js "&lt;") (replaceUnit 0x26 (js "&amp;") value))

def escapeAttr (value : JsString) : JsString := replaceUnit 0x22 (js "&quot;") (escapeHtml value)

def tag (name escaped : JsString) : JsString :=
  js "<" ++ name ++ js ">" ++ escaped ++ js "</" ++ name ++ js ">"

def code (raw : JsString) : JsString := tag (js "code") (escapeHtml raw)

def pre (raw : JsString) : JsString := tag (js "pre") (escapeHtml raw)

def expect (literal text : JsString) : Option JsString :=
  if literal.isPrefixOf text then some (text.drop literal.length) else none

/-- What a match is replaced by: a placeholder for HTML, or a text. -/
inductive Replacement where
  | html (html : JsString)
  | literal (text : JsString)

def PLACEHOLDER_PREFIX : JsString := [0x0000, 0x0070, 0x0068]

def PLACEHOLDER_SUFFIX : JsString := [0x0000]

def placeholder (index : Nat) : JsString := PLACEHOLDER_PREFIX ++ ofNat index ++ PLACEHOLDER_SUFFIX

/-- A global replacement with the matches that `matchAt` finds, on a text no longer than
the fuel.  The HTML goes behind the placeholders. -/
def replaceStashing (matchAt : JsString → Option (Replacement × JsString)) :
    Nat → List JsString → JsString → JsString × List JsString
  | 0, placeholders, _ | _ + 1, placeholders, [] => ([], placeholders)
  | fuel + 1, placeholders, u :: text =>
    match matchAt (u :: text) with
    | some (.html html, after) =>
      let rest := replaceStashing matchAt fuel (placeholders ++ [html]) after
      (placeholder placeholders.length ++ rest.1, rest.2)
    | some (.literal whole, after) =>
      let rest := replaceStashing matchAt fuel placeholders after
      (whole ++ rest.1, rest.2)
    | none =>
      let rest := replaceStashing matchAt fuel placeholders text
      (u :: rest.1, rest.2)

def fence : JsString := [0x60, 0x60, 0x60]

/-- The text before the first fence, and what follows the fence. -/
def splitAtFence : JsString → Option (JsString × JsString)
  | [] => none
  | u :: text =>
    match expect fence (u :: text) with
    | some after => some ([], after)
    | none => (splitAtFence text).map fun found => (u :: found.1, found.2)

def afterLastFence : JsString → Option JsString
  | [] => none
  | u :: text =>
    match afterLastFence text with
    | some after => some after
    | none => expect fence (u :: text)

/-- `` /```[^\n]*\n?([\s\S]*?)```/ ``.  Where no fence follows the first line, the expression
gives back the end of that line up to its last fence, and the body is empty. -/
def fenceAt (text : JsString) : Option (Replacement × JsString) :=
  (expect fence text).bind fun opened =>
    let info := opened.takeWhile (· ≠ LF)
    let block := opened.dropWhile (· ≠ LF)
    match splitAtFence block.tail with
    | some (body, after) => some (.html (pre body), after)
    | none => (afterLastFence info).map fun after => (.html (pre []), after ++ block)

/-- A delimiter that no line break may be inside of. -/
def inlineDelimiter (unit : CodeUnit) (width : Nat) (h : unit ≠ LF) (hpos : 0 < width) :
    Delimiter CodeUnit :=
  ⟨unit, width, (· == LF), hpos, beq_eq_false_iff_ne.mpr h⟩

/-- `` /`([^`\n]+)`/ ``. -/
def inlineCodeAt (text : JsString) : Option (Replacement × JsString) :=
  ((inlineDelimiter 0x60 1 (by decide) (by decide)).openAt text).map fun found =>
    (.html (code found.1), found.2)

/-- ASCII letters are read without their case (`/i`). -/
def foldCase (u : CodeUnit) : CodeUnit := if 0x41 ≤ u && u ≤ 0x5a then u + 0x20 else u

/-- `/^(https?:\/\/|mailto:)/i`. -/
def isSafeUrl (url : JsString) : Bool :=
  [js "http://", js "https://", js "mailto:"].any (·.isPrefixOf (url.map foldCase))

/-- `/\[([^\]\n]+)\]\(([^)\s]+)\)/`. -/
def linkAt (text : JsString) : Option (Replacement × JsString) :=
  let inLabel (u : CodeUnit) : Bool := u ≠ 0x5d && u ≠ LF
  let inUrl (u : CodeUnit) : Bool := u ≠ 0x29 && !isWhitespace u
  (expect (js "[") text).bind fun opened =>
    let label := opened.takeWhile inLabel
    (expect (js "](") (opened.dropWhile inLabel)).bind fun target =>
      let url := target.takeWhile inUrl
      (expect (js ")") (target.dropWhile inUrl)).bind fun after =>
        if label = [] ∨ url = [] then none
        else if isSafeUrl url then
          some (.html (js "<a href=\"" ++ escapeAttr url ++ js "\">" ++ escapeHtml label ++
            js "</a>"), after)
        else some (.literal (js "[" ++ label ++ js "](" ++ url ++ js ")"), after)

inductive ColumnAlign where
  | left | right | center
  deriving DecidableEq

/-- The loop of `splitTableRow`. -/
def splitCells (cur : JsString) : JsString → List JsString
  | [] => [cur]
  | 0x5c :: 0x7c :: s => splitCells (cur ++ [0x7c]) s
  | ch :: s => if ch = 0x7c then cur :: splitCells [] s else splitCells (cur ++ [ch]) s

def splitTableRow (line : JsString) : List JsString :=
  let s := trim line
  let s := if (js "|").isPrefixOf s then s.drop 1 else s
  let s := if (js "|").isSuffixOf s && !(js "\\|").isSuffixOf s then s.dropLast else s
  (splitCells [] s).map trim

/-- `/(?:^|[^\\])\|/`, from behind the unit `last` on. -/
def hasBar (last : CodeUnit) : JsString → Bool
  | [] => false
  | u :: rest => (u = 0x7c && last ≠ 0x5c) || hasBar u rest

def looksLikeTableRow (line : JsString) : Bool := hasBar 0 line

/-- `/^:?-+:?$/`. -/
def isSeparatorCell (cell : JsString) : Bool :=
  let dashes := if (js ":").isPrefixOf cell then cell.drop 1 else cell
  (js "-").isPrefixOf dashes &&
    (dashes.dropWhile (· = 0x2d) = [] || dashes.dropWhile (· = 0x2d) = js ":")

def isTableSeparator (line : JsString) : Bool :=
  looksLikeTableRow line && !(splitTableRow line).isEmpty &&
    (splitTableRow line).all isSeparatorCell

def parseAlign (cell : JsString) : ColumnAlign :=
  let c := trim cell
  if (js ":").isPrefixOf c && (js ":").isSuffixOf c then .center
  else if (js ":").isSuffixOf c then .right
  else .left

def padCell (align : ColumnAlign) (width : Nat) (value : JsString) : JsString :=
  let pad := width - value.length
  match align with
  | .right => List.replicate pad 0x20 ++ value
  | .center => List.replicate (pad / 2) 0x20 ++ value ++ List.replicate (pad - pad / 2) 0x20
  | .left => value ++ List.replicate pad 0x20

def renderTableText (header : List JsString) (aligns : List ColumnAlign)
    (body : List (List JsString)) : JsString :=
  let rows := header :: body
  let cols := rows.foldl (fun n row => max n row.length) 0
  let width (c : Nat) : Nat := rows.foldl (fun w row => max w (row.getD c []).length) 1
  let renderRow (row : List JsString) : JsString := (js " | ").intercalate
    ((List.range cols).map fun c => padCell (aligns.getD c .left) (width c) (row.getD c []))
  let divider := (js "-|-").intercalate
    ((List.range cols).map fun c => List.replicate (width c) 0x2d)
  unlines (renderRow header :: divider :: body.map renderRow)

/-- A cell of a record: its label in bold, or the number of its column, and its value. -/
def renderField (label : JsString) (column : Nat) (value : JsString) : JsString :=
  tag (js "b") (escapeHtml (if label = [] then js "Column " ++ ofNat (column + 1) else label)) ++
    js ": " ++ escapeHtml value

def renderTelegramTable (stringWidth : JsString → Nat) (header : List JsString)
    (aligns : List ColumnAlign) (body : List (List JsString)) : JsString :=
  let grid := renderTableText header aligns body
  if body.isEmpty || (lines grid).all (fun line => stringWidth line ≤ 42) then pre grid
  else (js "\n\n").intercalate (body.map fun row =>
    unlines (header.zipIdx.map fun cell => renderField cell.1 cell.2 (row.getD cell.2 [])))

/-- The loop of `convertMarkdownTables`, on no more lines than the fuel. -/
def convertLines (stringWidth : JsString → Nat) :
    Nat → List JsString → List JsString → List JsString × List JsString
  | 0, placeholders, _ | _ + 1, placeholders, [] => ([], placeholders)
  | fuel + 1, placeholders, headerLine :: rest =>
    let separatorLine := rest.headD []
    if looksLikeTableRow headerLine && isTableSeparator separatorLine then
      let isRow (row : JsString) : Bool := looksLikeTableRow row && !isTableSeparator row
      let table := renderTelegramTable stringWidth (splitTableRow headerLine)
        ((splitTableRow separatorLine).map parseAlign)
        ((rest.tail.takeWhile isRow).map splitTableRow)
      let out := convertLines stringWidth fuel (placeholders ++ [table]) (rest.tail.dropWhile isRow)
      (placeholder placeholders.length :: out.1, out.2)
    else
      let out := convertLines stringWidth fuel placeholders rest
      (headerLine :: out.1, out.2)

def convertMarkdownTables (stringWidth : JsString → Nat) (placeholders : List JsString)
    (text : JsString) : JsString × List JsString :=
  let out := convertLines stringWidth (lines text).length placeholders (lines text)
  (unlines out.1, out.2)

/-- Fenced code, tables, inline code and links, in this order. -/
def protect (stringWidth : JsString → Nat) (markdown : JsString) : JsString × List JsString :=
  let fenced := replaceStashing fenceAt markdown.length [] markdown
  let tables := convertMarkdownTables stringWidth fenced.2 fenced.1
  let coded := replaceStashing inlineCodeAt tables.1.length tables.2 tables.1
  replaceStashing linkAt coded.1.length coded.2 coded.1

/-- What `.` does not match. -/
def isLineTerminator (u : CodeUnit) : Bool := u = LF || u = CR || u = 0x2028 || u = 0x2029

/-- `/^&gt;\s?(.*)$/`. -/
def quoteBody (line : JsString) : Option JsString :=
  (expect (js "&gt;") line).bind fun rest =>
    let body := if (rest.head?.map isWhitespace).getD false then rest.tail else rest
    if body.any isLineTerminator then none else some body

/-- `/^(#{1,6})\s+(.*)$/`. -/
def headerBody (line : JsString) : Option JsString :=
  let rest := line.dropWhile (· = 0x23)
  let hashes := line.length - rest.length
  let body := rest.dropWhile isWhitespace
  if 1 ≤ hashes ∧ hashes ≤ 6 ∧ body.length < rest.length ∧ ¬ body.any isLineTerminator then
    some body
  else none

def flushQuote : Option (List JsString) → List JsString
  | none => []
  | some quoteBuffer => [tag (js "blockquote") (unlines quoteBuffer)]

/-- The loop over the lines, with the quote buffer. -/
def blockLines : Option (List JsString) → List JsString → List JsString
  | quoteBuffer, [] => flushQuote quoteBuffer
  | quoteBuffer, line :: rest =>
    match quoteBody line with
    | some body => blockLines (some (quoteBuffer.getD [] ++ [body])) rest
    | none =>
      let rendered := match headerBody line with
        | some body => tag (js "b") body
        | none => line
      flushQuote quoteBuffer ++ rendered :: blockLines none rest

def replaceSegment (name : JsString) : Delimiter.Segment CodeUnit → JsString
  | .plain u => [u]
  | .pair body => tag name body

/-- A pass over paired markers. -/
def replacePairs (d : Delimiter CodeUnit) (name text : JsString) : JsString :=
  (d.segments text).flatMap (replaceSegment name)

theorem star_ne_LF : (0x2a : CodeUnit) ≠ LF := by decide

theorem tilde_ne_LF : (0x7e : CodeUnit) ≠ LF := by decide

def boldDelimiter : Delimiter CodeUnit := inlineDelimiter 0x2a 2 star_ne_LF Nat.two_pos

def italicDelimiter : Delimiter CodeUnit := inlineDelimiter 0x2a 1 star_ne_LF Nat.one_pos

def strikeDelimiter : Delimiter CodeUnit := inlineDelimiter 0x7e 2 tilde_ne_LF Nat.two_pos

def emphasize (text : JsString) : JsString :=
  let text := replacePairs boldDelimiter (js "b") text
  let text := replacePairs italicDelimiter (js "i") text
  replacePairs strikeDelimiter (js "s") text

/-- The index of the placeholder that is here, and what follows it. -/
def placeholderAt (text : JsString) : Option (Nat × JsString) :=
  (expect PLACEHOLDER_PREFIX text).bind fun rest =>
    let digits := rest.takeWhile isDigit
    if digits = [] then none
    else (expect PLACEHOLDER_SUFFIX (rest.dropWhile isDigit)).map fun after =>
      (parseNat digits, after)

def restoreFrom (placeholders : List JsString) : Nat → JsString → JsString
  | 0, _ | _ + 1, [] => []
  | fuel + 1, u :: text =>
    match placeholderAt (u :: text) with
    | some (index, after) => placeholders.getD index [] ++ restoreFrom placeholders fuel after
    | none => u :: restoreFrom placeholders fuel text

def restore (placeholders : List JsString) (text : JsString) : JsString :=
  restoreFrom placeholders text.length text

def markdownToTelegramHtml (stringWidth : JsString → Nat) (markdown : JsString) : JsString :=
  let protectedText := protect stringWidth markdown
  let blocks := unlines (blockLines none (lines (escapeHtml protectedText.1)))
  restore protectedText.2 (emphasize blocks)

end TelegramHtml
end GajaeCode
