import GajaeCode.ByteTruncation

/-! # The output sink

`OutputSink` of `packages/coding-agent/src/session/streaming-output.ts`.  Chunks of
output are sanitized and capped by column; of the stream that results the sink keeps a
window at the head and one at the tail.  The head takes text while it has room for it,
the rest goes to the tail, which is trimmed from the front.  The artifact file and the
live callbacks, which look on and change nothing here, are left out.
-/
namespace GajaeCode
open JsString

/-- What the sink takes from its surroundings: the sanitizer, which strips terminal
escapes by the runtime's own `stripANSI`, and the number format of the locale. -/
structure SinkHost where
  sanitizeOutputChunk : JsString → JsString
  toLocaleString : Nat → JsString

structure OutputSinkOptions where
  spillThreshold : Nat := 50 * 1024
  headBytes : Int := 0
  maxColumns : Int := 0
  coalesceSanitize : Bool := false

/-- The state of the column cap on the line under way. -/
structure ColumnState where
  currentLineBytes : Nat
  columnEllipsisAdded : Bool
  columnDroppedBytes : Nat
  columnTruncatedLines : Nat
  deriving DecidableEq

/-- The sink: its tail (`buffer`), its head, the counters and the limits. -/
structure OutputSink where
  buffer : JsString
  bufferBytes : Nat
  head : JsString
  headBytes : Nat
  headRetentionDisabled : Bool
  totalLines : Nat
  totalBytes : Nat
  processedBytes : Nat
  processedLines : Nat
  sawData : Bool
  truncated : Bool
  column : ColumnState
  spillThreshold : Nat
  headLimit : Nat
  maxColumns : Nat
  coalesceSanitize : Bool
  coalesceBuf : JsString
  deriving DecidableEq

def coalesceFlushChars : Nat := 64 * 1024

def countNewlines (text : JsString) : Nat := text.count LF

/-- `Buffer.byteLength(text, "utf-8")`. -/
def byteLength (text : JsString) : Nat := (utf8 text).length

/-- `…`. -/
def ellipsis : JsString := [0x2026]

/-- A piece of a line under the cap of `max` bytes.  Past the cap it is dropped; where
it first overflows, what fits before the ellipsis is kept. -/
def capSegment (max : Nat) (st : ColumnState) (segment : JsString) : JsString × ColumnState :=
  if segment = [] then ([], st)
  else
    let segBytes := byteLength segment
    if st.columnEllipsisAdded then
      ([], { st with columnDroppedBytes := st.columnDroppedBytes + segBytes })
    else
      let remaining := max - st.currentLineBytes
      if segBytes ≤ remaining then
        (segment, { st with currentLineBytes := st.currentLineBytes + segBytes })
      else
        let ellipsisBytes := 3
        let headRoom := remaining - ellipsisBytes
        let sliced :=
          if 0 < headRoom then truncateHeadBytes segment headRoom else ⟨[], 0⟩
        (sliced.text ++ ellipsis,
          { currentLineBytes := st.currentLineBytes + (sliced.bytes + ellipsisBytes)
            columnEllipsisAdded := true
            columnDroppedBytes := st.columnDroppedBytes + (segBytes - sliced.bytes)
            columnTruncatedLines := st.columnTruncatedLines + 1 })

/-- The pieces between line feeds, each line feed starting the count anew. -/
def capLines (max : Nat) : ColumnState → List JsString → JsString × ColumnState
  | st, [] => ([], st)
  | st, [segment] => capSegment max st segment
  | st, segment :: next :: rest =>
    let first := capSegment max st segment
    let others := capLines max
      { first.2 with currentLineBytes := 0, columnEllipsisAdded := false } (next :: rest)
    (first.1 ++ LF :: others.1, others.2)

def applyColumnCap (max : Nat) (st : ColumnState) (chunk : JsString) : JsString × ColumnState :=
  if chunk.length = 0 then (chunk, st) else capLines max st (lines chunk)

namespace OutputSink

def create (options : OutputSinkOptions) : OutputSink where
  buffer := []
  bufferBytes := 0
  head := []
  headBytes := 0
  headRetentionDisabled := false
  totalLines := 0
  totalBytes := 0
  processedBytes := 0
  processedLines := 0
  sawData := false
  truncated := false
  column := ⟨0, false, 0, 0⟩
  spillThreshold := options.spillThreshold
  headLimit := options.headBytes.toNat
  maxColumns := options.maxColumns.toNat
  coalesceSanitize := options.coalesceSanitize
  coalesceBuf := []

def setTail (s : OutputSink) (text : JsString) (bytes : Nat) : OutputSink :=
  { s with buffer := text, bufferBytes := bytes }

def appendTail (s : OutputSink) (text : JsString) (bytes : Nat) : OutputSink :=
  { s with buffer := s.buffer ++ text, bufferBytes := s.bufferBytes + bytes }

def appendHead (s : OutputSink) (text : JsString) (bytes : Nat) : OutputSink :=
  { s with head := s.head ++ text, headBytes := s.headBytes + bytes }

def trimTailTo (s : OutputSink) (maxBytes : Nat) : OutputSink :=
  if s.bufferBytes ≤ maxBytes then s
  else
    let kept := truncateTailBytes s.buffer maxBytes
    s.setTail kept.text kept.bytes

def pushTail (s : OutputSink) (chunk : JsString) (dataBytes : Nat) : OutputSink :=
  if dataBytes = 0 then s
  else
    let threshold := s.spillThreshold
    if s.bufferBytes + dataBytes ≤ threshold then s.appendTail chunk dataBytes
    else
      let s := { s with truncated := true }
      if threshold ≤ dataBytes then
        let kept := truncateTailBytes chunk threshold
        s.setTail kept.text kept.bytes
      else (s.appendTail chunk dataBytes).trimTailTo threshold

/-- The end of `#ingest`: the visible chunk goes to the head while it fits, what is
left of it to the tail. -/
def retain (s : OutputSink) (visibleChunk : JsString) (visibleBytes : Nat) : OutputSink :=
  if 0 < s.headLimit ∧ s.headRetentionDisabled = false ∧ s.headBytes < s.headLimit then
    let room := s.headLimit - s.headBytes
    if visibleBytes ≤ room then s.appendHead visibleChunk visibleBytes
    else
      let headSlice := truncateHeadBytes visibleChunk room
      if 0 < headSlice.bytes then
        (s.appendHead headSlice.text headSlice.bytes).pushTail
          (visibleChunk.drop headSlice.text.length) (visibleBytes - headSlice.bytes)
      else s.pushTail visibleChunk visibleBytes
  else s.pushTail visibleChunk visibleBytes

variable (host : SinkHost)

/-- The visible text of a raw chunk, and the state of the column cap after it. -/
def visible (s : OutputSink) (rawChunk : JsString) : JsString × ColumnState :=
  let sanitizedChunk := host.sanitizeOutputChunk rawChunk
  if 0 < s.maxColumns then applyColumnCap s.maxColumns s.column sanitizedChunk
  else (sanitizedChunk, s.column)

def countRaw (s : OutputSink) (rawChunk : JsString) : OutputSink :=
  let s := { s with totalBytes := s.totalBytes + byteLength rawChunk }
  if 0 < rawChunk.length then
    { s with sawData := true, totalLines := s.totalLines + countNewlines rawChunk }
  else s

def countVisible (s : OutputSink) (visibleChunk : JsString) : OutputSink :=
  if 0 < visibleChunk.length then
    { s with
      processedBytes := s.processedBytes + byteLength visibleChunk
      processedLines := s.processedLines + countNewlines visibleChunk }
  else s

def ingest (s : OutputSink) (rawChunk : JsString) : OutputSink :=
  let counted := s.countRaw rawChunk
  if byteLength rawChunk = 0 then counted
  else
    let (visibleChunk, column) := counted.visible host rawChunk
    let seen := { counted with column }.countVisible visibleChunk
    if byteLength visibleChunk = 0 then seen
    else seen.retain visibleChunk (byteLength visibleChunk)

def flushCoalesced (s : OutputSink) : OutputSink :=
  if s.coalesceBuf.length = 0 then s
  else { s with coalesceBuf := [] }.ingest host s.coalesceBuf

def push (s : OutputSink) (chunk : JsString) : OutputSink :=
  if s.coalesceSanitize = false then s.ingest host chunk
  else
    let s := { s with coalesceBuf := s.coalesceBuf ++ chunk }
    if coalesceFlushChars ≤ s.coalesceBuf.length then s.flushCoalesced host else s

/-- `formatByteUnit`: tenths of a unit, rounded half up and kept below the next unit. -/
def formatByteUnit (bytes unit : Nat) : JsString :=
  let tenths := min ((20 * bytes + unit) / (2 * unit)) (1024 * 10 - 1)
  ofNat (tenths / 10) ++ js "." ++ ofNat (tenths % 10)

def formatBytes (bytes : Nat) : JsString :=
  if bytes < 1024 then ofNat bytes ++ js "B"
  else if bytes < 1024 * 1024 then formatByteUnit bytes 1024 ++ js "KB"
  else if bytes < 1024 * 1024 * 1024 then formatByteUnit bytes (1024 * 1024) ++ js "MB"
  else formatByteUnit bytes (1024 * 1024 * 1024) ++ js "GB"

def formatMiddleElisionMarker (elidedLines elidedBytes : Nat) : JsString :=
  js "[… " ++ host.toLocaleString elidedLines ++ js " line" ++
    (if elidedLines = 1 then [] else js "s") ++ js " elided (" ++ formatBytes elidedBytes ++
    js ") …]"

/-- `OutputSummary`, less the artifact. -/
structure Summary where
  output : JsString
  truncated : Bool
  totalLines : Nat
  totalBytes : Nat
  outputLines : Nat
  outputBytes : Nat
  elidedBytes : Option Nat
  elidedLines : Option Nat
  columnDroppedBytes : Option Nat
  columnTruncatedLines : Option Nat
  deriving DecidableEq

/-- The visible part of a summary: the body with its size, and what was elided. -/
structure Body where
  text : JsString
  outputBytes : Nat
  outputLines : Nat
  elided : Option (Nat × Nat)
  deriving DecidableEq

def endsWithNewline (text : JsString) : Bool := text.getLast? == some LF

/-- What `dump` composes of the windows of a flushed sink. -/
def body (s : OutputSink) : Body :=
  let processedTotalLines := if s.sawData then s.processedLines + 1 else 0
  let headBytes := byteLength s.head
  let headLines :=
    countNewlines s.head + (if 0 < headBytes ∧ endsWithNewline s.head = false then 1 else 0)
  let tailBytes := byteLength s.buffer
  let tailLines := if 0 < s.buffer.length then countNewlines s.buffer + 1 else 0
  if 0 < headBytes ∧ headBytes + tailBytes < s.processedBytes then
    let elidedBytes := s.processedBytes - headBytes - tailBytes
    let elidedLines := processedTotalLines - headLines - tailLines
    if elidedLines = 0 then ⟨s.head, headBytes, headLines, some (elidedBytes, elidedLines)⟩
    else
      let marker := formatMiddleElisionMarker host elidedLines elidedBytes
      let headSep := if endsWithNewline s.head then [] else [LF]
      let tailSep := if s.buffer.head? = some LF then [] else [LF]
      ⟨s.head ++ headSep ++ marker ++ tailSep ++ s.buffer,
        headBytes + byteLength marker + tailBytes + headSep.length + tailSep.length,
        headLines + 1 + tailLines, some (elidedBytes, elidedLines)⟩
  else if 0 < headBytes then
    let text := s.head ++ s.buffer
    ⟨text, headBytes + tailBytes, if 0 < text.length then countNewlines text + 1 else 0, none⟩
  else ⟨s.buffer, tailBytes, tailLines, none⟩

/-- `dump`'s `noticeLine`: a notice that is not empty gets a line of its own. -/
def noticeLine : Option JsString → JsString
  | none | some [] => []
  | some n => js "[" ++ n ++ js "]\n"

def dump (s : OutputSink) (notice : Option JsString) : Summary × OutputSink :=
  let s := s.flushCoalesced host
  let b := s.body host
  let truncated := s.truncated || b.elided.isSome || decide (0 < s.column.columnDroppedBytes)
  ({ output := noticeLine notice ++ b.text
     truncated
     totalLines := if s.sawData then s.totalLines + 1 else 0
     totalBytes := s.totalBytes
     outputLines := b.outputLines
     outputBytes := b.outputBytes
     elidedBytes := b.elided.map Prod.fst
     elidedLines := b.elided.map Prod.snd
     columnDroppedBytes :=
       if 0 < s.column.columnDroppedBytes then some s.column.columnDroppedBytes else none
     columnTruncatedLines :=
       if 0 < s.column.columnTruncatedLines then some s.column.columnTruncatedLines else none },
    { s with truncated })

end OutputSink
end GajaeCode
