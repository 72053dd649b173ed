import GajaeCode.JsonValue
import Mathlib.Data.List.Sort

/-! # Harmony headers that leak

`packages/agent/src/harmony-leak.ts`, detection: the regular expressions as functions on what
stands at a place of a text, the signals they give, and the first leak of a message.
-/
namespace GajaeCode
open JsString JsValue

namespace HarmonyLeak

/-- `\w` -/
def isWord (u : CodeUnit) : Bool :=
  isDigit u || (0x41 ≤ u && u ≤ 0x5a) || (0x61 ≤ u && u ≤ 0x7a) || u == 0x5f

/-- `\b`, between a unit and what follows it. -/
def boundary (before : Option CodeUnit) (text : JsString) : Bool :=
  before.any isWord != text.head?.any isWord

/-- A pattern tried at one place: given the unit before the place and the text from there, what
is left behind the match. -/
abbrev Pattern := Option CodeUnit → JsString → Option JsString

def literal (word text : JsString) : Option JsString :=
  if word.isPrefixOf text then some (text.drop word.length) else none

/-- What follows the longest run of one or more units of a class. -/
def some1 (ok : CodeUnit → Bool) (text : JsString) : Option JsString :=
  if text.head?.any ok then some (text.dropWhile ok) else none

/-- `text.matchAll(pattern)` from a place on, for a pattern that matches no empty text: where the
matches begin and what they are.  `skip` units belong to a match. -/
def matchAllFrom (pattern : Pattern) (start : Nat) (before : Option CodeUnit) :
    (skip : Nat) → JsString → List (Nat × JsString)
  | _, [] => []
  | skip + 1, u :: rest => matchAllFrom pattern (start + 1) (some u) skip rest
  | 0, u :: rest =>
    match pattern before (u :: rest) with
    | some left =>
      let found := (u :: rest).take ((u :: rest).length - left.length)
      (start, found) :: matchAllFrom pattern (start + 1) (some u) (found.length - 1) rest
    | none => matchAllFrom pattern (start + 1) (some u) 0 rest

def matchAll (pattern : Pattern) (text : JsString) : List (Nat × JsString) :=
  matchAllFrom pattern 0 none 0 text

/-- `pattern.test(text)` -/
def test (pattern : Pattern) (text : JsString) : Bool := !(matchAll pattern text).isEmpty

variable (text : JsString)

/-- `text.slice(start, stop)`, for a start that is not negative. -/
def slice (start stop : Nat) : JsString := (text.take stop).drop start

def MARKER : JsString := js "to=functions."

/-- `/\bto=functions\.[A-Za-z_]\w*/` -/
def MARKER_RE : Pattern := fun before text =>
  if boundary before text then
    (literal MARKER text).bind fun text =>
      if text.head?.any fun u => isWord u && !isDigit u then some1 isWord text else none
  else none

/-- `/<\|(start|end|channel|message|call|return)\|>/` -/
def HARMONY_RE : Pattern := fun _ text =>
  [js "start", js "end", js "channel", js "message", js "call", js "return"].findSome? fun word =>
    literal (js "<|" ++ word ++ js "|>") text

/-- `/<invoke\s+name="[^"]+"\s*>/` -/
def INVOKE_OPEN_RE : Pattern := fun _ text =>
  (literal (js "<invoke") text).bind fun text =>
  (some1 isWhitespace text).bind fun text =>
  (literal (js "name=\"") text).bind fun text =>
  (some1 (· != 0x22) text).bind fun text =>
  (literal (js "\"") text).bind fun text =>
  literal (js ">") (text.dropWhile isWhitespace)

/-- `/<parameter\s+name="|<\/invoke>/` -/
def INVOKE_BODY_RE : Pattern := fun _ text =>
  ((literal (js "<parameter") text).bind fun text =>
    (some1 isWhitespace text).bind (literal (js "name=\""))).or
  (literal (js "</invoke>") text)

/-- `/\b(?:analysis|commentary|assistant|user|system|developer|tool)\s+to=functions\./` -/
def CHANNEL_WORD_RE : Pattern := fun before text =>
  if boundary before text then
    [js "analysis", js "commentary", js "assistant", js "user", js "system", js "developer",
      js "tool"].findSome? fun word =>
        (literal word text).bind fun text => (some1 isWhitespace text).bind (literal MARKER)
  else none

/-- `/\b(?:changedFiles|RTLU|Jsii(?:_commentary)?|Japgolly)\b/` -/
def GLITCH_RE : Pattern := fun before text =>
  if boundary before text then
    [js "changedFiles", js "RTLU", js "Jsii_commentary", js "Jsii", js "Japgolly"].findSome?
      fun word => (literal word text).bind fun text =>
        if boundary word.getLast? text then some text else none
  else none

/-- `/to=functions\.\w+\s+code\b[\s\S]{0,200}?to=functions\./` -/
def BODY_CASCADE_RE : Pattern := fun _ text =>
  (literal MARKER text).bind fun text =>
  (some1 isWord text).bind fun text =>
  (some1 isWhitespace text).bind fun text =>
  (literal (js "code") text).bind fun text =>
  if boundary (some 0x65) text then
    (List.range 201).findSome? fun k =>
      if k ≤ text.length then literal MARKER (text.drop k) else none
  else none

/-- `/code_output\s*\nCell\s+\d+:/`: the white space ends with its last newline. -/
def cellFraming : Option JsString :=
  (literal (js "code_output") text).bind fun text =>
  if (text.takeWhile isWhitespace).getLast? = some LF then
    (literal (js "Cell") (text.dropWhile isWhitespace)).bind fun text =>
    (some1 isWhitespace text).bind fun text =>
    (some1 isDigit text).bind (literal (js ":"))
  else none

/-- `/to=functions\.\w+[\s\S]{0,80}?code_output\s*\nCell\s+\d+:/`: the two runs together are
between one unit and 80 more than the units of `\w`. -/
def FAKE_RESULT_RE : Pattern := fun _ text =>
  (literal MARKER text).bind fun text =>
    (List.range ((text.takeWhile isWord).length + 80)).findSome? fun k =>
      if text.head?.any isWord && k + 1 ≤ text.length then cellFraming (text.drop (k + 1)) else none

/-- `/^\s*(?:```+|~~~+)/` -/
def FENCE_RE (line : JsString) : Bool :=
  (js "```").isPrefixOf (trimStart line) || (js "~~~").isPrefixOf (trimStart line)

/-- `SCRIPT_CLASS`, as ranges. -/
def SCRIPT_CLASS : List (CodeUnit × CodeUnit) :=
  [(0x1100, 0x11ff), (0x3130, 0x318f), (0xa960, 0xa97f), (0xac00, 0xd7af), (0xd7b0, 0xd7ff),
    (0x3400, 0x4dbf), (0x4e00, 0x9fff), (0xf900, 0xfaff), (0x0400, 0x04ff), (0x0e00, 0x0e7f),
    (0x10a0, 0x10ff), (0x0530, 0x058f), (0x0c80, 0x0cff), (0x0c00, 0x0c7f), (0x0900, 0x097f),
    (0x0600, 0x06ff), (0x0d00, 0x0d7f)]

def inScript (u : CodeUnit) : Bool := SCRIPT_CLASS.any fun (first, last) => first ≤ u && u ≤ last

/-- `SCRIPT_RUN_RE`: two units of the class in a row. -/
def SCRIPT_RUN_RE : Pattern := fun _ text =>
  match text with
  | u :: v :: rest => if inScript u && inScript v then some rest else none
  | _ => none

/-! ## Signals -/

inductive HarmonySignalClass where
  | H | I | M | C | G | S | B | R | T
deriving DecidableEq

inductive HarmonySurface where
  | assistantText | assistantThinking | toolArg
deriving DecidableEq

structure HarmonySignal where
  classes : List HarmonySignalClass
  start : Nat
  stop : Nat
  text : JsString
deriving DecidableEq

structure HarmonyDetection where
  surface : HarmonySurface
  contentIndex : Option Nat
  toolName : Option JsString
  toolCallId : Option JsString
  signals : List HarmonySignal
deriving DecidableEq

def SIGNAL_ORDER : List HarmonySignalClass := [.M, .C, .G, .S, .B, .R, .T]

def makeSignal (classes : List HarmonySignalClass) (start stop : Nat) (text : JsString) :
    HarmonySignal :=
  if classes.head? = some .H ∨ classes.head? = some .I then
    ⟨classes.take 1, start, stop, text⟩
  else ⟨SIGNAL_ORDER.filter (· ∈ classes), start, stop, text⟩

/-- The loop of `computeFenceRanges` over the lines; the first one begins at `lineStart`. -/
def fenceRanges (total : Nat) : (lineStart : Nat) → (fence : Option Nat) → List JsString →
    List (Nat × Nat)
  | _, none, [] => []
  | _, some start, [] => [(start, total)]
  | lineStart, fence, line :: rest =>
    let next := lineStart + line.length + 1
    if FENCE_RE line then
      match fence with
      | some start => (start, lineStart + line.length) :: fenceRanges total next none rest
      | none => fenceRanges total next (some lineStart) rest
    else fenceRanges total next fence rest

def computeFenceRanges : List (Nat × Nat) :=
  fenceRanges text.length 0 none (lines text)

def isInsideFence : List (Nat × Nat) → Nat → Bool
  | [], _ => false
  | (start, stop) :: ranges, position =>
    if start ≤ position && position < stop then true
    else if start > position then false
    else isInsideFence ranges position

/-- `ascii / surrounding.length >= 0.85` without the division. -/
def hasScriptMismatchNear (start stop : Nat) : Bool :=
  if !test SCRIPT_RUN_RE (slice text (start - 32) (stop + 32)) then false
  else
    let surrounding := slice text (start - 200) (stop + 200)
    if surrounding.length = 0 then false
    else 20 * surrounding.countP (· < 128) ≥ 17 * surrounding.length

/-- The classes of a marker, `M` first. -/
def markerClasses (parsedEnd : Option Nat) (start stop : Nat) : List HarmonySignalClass :=
  let adjacent := slice text (start - 64) (stop + 16)
  let near := slice text (start - 16) (stop + 16)
  let forward := slice text start (start + 240)
  [.M] ++ (if test CHANNEL_WORD_RE adjacent then [.C] else []) ++
    (if test GLITCH_RE near then [.G] else []) ++
    (if hasScriptMismatchNear text start stop then [.S] else []) ++
    (if test BODY_CASCADE_RE forward then [.B] else []) ++
    (if test FAKE_RESULT_RE forward then [.R] else []) ++
    (if parsedEnd.any (· ≤ start) then [.T] else [])

/-- The options of `detectHarmonyLeak`. -/
structure DetectOptions where
  parsedEnd : Option Nat
  contentIndex : Option Nat
  toolName : Option JsString
  toolCallId : Option JsString

/-- The signals of a text in the order in which they are found. -/
def foundSignals (parsedEnd : Option Nat) : List HarmonySignal :=
  let fences := computeFenceRanges text
  let outside (found : Nat × JsString) : Bool := !isInsideFence fences found.1
  ((matchAll HARMONY_RE text).filter outside).map
      (fun (start, found) => makeSignal [.H] start (start + found.length) found) ++
    (((matchAll INVOKE_OPEN_RE text).filter outside).filter fun (start, _) =>
        test INVOKE_BODY_RE (slice text start (start + 400))).map
      (fun (start, found) => makeSignal [.I] start (start + found.length) found) ++
    ((matchAll MARKER_RE text).filter outside).filterMap fun (start, found) =>
      let stop := start + found.length
      let classes := markerClasses text parsedEnd start stop
      if classes.length > 1 then some (makeSignal classes start stop found) else none

def detectHarmonyLeak (surface : HarmonySurface) (options : DetectOptions) :
    Option HarmonyDetection :=
  let signals := foundSignals text options.parsedEnd
  if signals.length = 0 then none
  else
    some ⟨surface, options.contentIndex, options.toolName, options.toolCallId,
      signals.insertionSort fun a b => a.start < b.start ∨ a.start = b.start ∧ a.stop ≤ b.stop⟩

inductive ContentBlock (N : Type) where
  | text (text : JsString)
  | thinking (thinking : JsString)
  | toolCall (id name : JsString) (arguments : JsFields N)

/-- The fields of an assistant message that recovery sets. -/
structure AssistantMessage (N : Type) where
  content : List (ContentBlock N)
  providerPayload : JsValue N
  stopReason : JsString
  errorMessage : Option JsString

section Message
variable {N : Type} [JsNumber N]

def getToolArgumentText (arguments : JsFields N) : JsString :=
  match getField arguments (js "input") with
  | .string input => input
  | _ => jsonText (.object arguments)

/-- What a block gives for `detectHarmonyLeakInAssistantMessage`. -/
def detectInBlock (i : Nat) : ContentBlock N → Option HarmonyDetection
  | .text text => detectHarmonyLeak text .assistantText ⟨none, some i, none, none⟩
  | .thinking thinking => detectHarmonyLeak thinking .assistantThinking ⟨none, some i, none, none⟩
  | .toolCall id name arguments =>
    detectHarmonyLeak (getToolArgumentText arguments) .toolArg ⟨none, some i, some name, some id⟩

def detectHarmonyLeakInAssistantMessage (message : AssistantMessage N) : Option HarmonyDetection :=
  message.content.zipIdx.findSome? fun (block, i) => detectInBlock i block

end Message

end HarmonyLeak
end GajaeCode
