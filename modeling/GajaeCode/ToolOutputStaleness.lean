import GajaeCode.HarmonyLeak
import GajaeCode.HashlineParser

/-! # Stale tool results

`packages/agent/src/compaction/pruning.ts`, `buildStalenessIndex`: which results of tool
calls have been superseded by a later result for the same target, by a read of more of
the same file, or by a later edit of the file they read.  Nothing of the text of a result
is looked at for this.
-/
namespace GajaeCode
open JsString JsValue HarmonyLeak

namespace Pruning

structure ToolCall (N : Type) where
  id : JsString
  name : JsString
  arguments : JsFields N

inductive AssistantBlock (N : Type) where
  | text (text : JsString)
  | thinking (thinking : JsString)
  | toolCall (call : ToolCall N)
  | other

/-- A block of any other message. -/
inductive ContentBlock where
  | text (text : JsString)
  | image
  | other

/-- `string | Block[]`. -/
inductive Content where
  | string (text : JsString)
  | blocks (blocks : List ContentBlock)

/-- A tool result, less its output. -/
structure ToolResultHead (N : Type) where
  toolCallId : JsString
  toolName : JsString
  isError : Bool
  details : JsValue N

structure ToolResultMessage (N : Type) extends ToolResultHead N where
  content : Content
  prunedAt : Option Nat

/-- `AgentMessage`, by its role. -/
inductive AgentMessage (N : Type) where
  | user (content : Content)
  | custom (content : Content)
  | assistant (content : List (AssistantBlock N))
  | toolResult (message : ToolResultMessage N)
  | hookMessage (content : Content)
  | bashExecution (command output : Option JsString)
  | branchSummary (summary : JsString)
  | compactionSummary (summary : JsString)
  | other

/-- `SessionEntry`, by its type. -/
inductive SessionEntry (N : Type) where
  | message (message : AgentMessage N)
  | customMessage (content : Content)
  | branchSummary (summary : JsString)
  | other

variable {N : Type} [JsNumber N]

omit [JsNumber N] in
/-- `value?.key`. -/
def prop (value : JsValue N) (key : JsString) : JsValue N :=
  match value with
  | .object fields => getField fields key
  | _ => .undefined

def getToolResultMessage : SessionEntry N → Option (ToolResultMessage N)
  | .message (.toolResult message) => some message
  | _ => none

/-- `value ?? other`. -/
def orElse (value other : JsValue N) : JsValue N :=
  match value with
  | .undefined | .null => other
  | v => v

variable (call : ToolCall N)

def toolCallPath : Option JsString :=
  match orElse (orElse (getField call.arguments (js "path"))
      (getField call.arguments (js "file_path"))) (getField call.arguments (js "filePath")) with
  | .string path => if 0 < path.length then some path else none
  | _ => none

/-- `APPLY_PATCH_HEADER` on a line: the path, and whether the line moves the file there. -/
def applyPatchHeader (line : JsString) : Option (JsString × Bool) := do
  let text ← literal (js "*** ") line
  let file := (literal (js "Add File: ") text).or
    ((literal (js "Update File: ") text).or (literal (js "Delete File: ") text))
  match file, literal (js "Move to: ") text with
  | some (u :: path), _ => some (u :: path, false)
  | none, some (u :: path) => some (u :: path, true)
  | _, _ => none

/-- The headers of a patch by hunks: a move joins the hunk before it. -/
def headerGroups (groups : List (List JsString)) (line : JsString) : List (List JsString) :=
  match applyPatchHeader line with
  | none => groups
  | some (path, isMoveTo) =>
    let headerPath := trim path
    if headerPath = [] then groups
    else
      match isMoveTo, groups.reverse with
      | true, group :: before => before.reverse ++ [group ++ [headerPath]]
      | _, _ => groups ++ [[headerPath]]

def editToolPathGroups : List (List JsString) :=
  match toolCallPath call with
  | some path => [[path]]
  | none =>
    match getField call.arguments (js "input") with
    | .string input => (input.splitOnP (fun u => !isDot u)).foldl headerGroups []
    | _ => []

def editToolNames : List JsString := [js "edit", js "write", js "apply_patch", js "ast_edit"]

/-- `\d+(?:[-+]\d+)?`: the numbers, and the sign between them. -/
def readRange (part : JsString) : Option (Nat × Option (CodeUnit × Nat)) := do
  let rest ← some1 isDigit part
  let start := parseNat (part.takeWhile isDigit)
  match rest with
  | [] => some (start, none)
  | sign :: digits =>
    if (sign = 0x2d ∨ sign = 0x2b) ∧ digits ≠ [] ∧ digits.all isDigit = true then
      some (start, some (sign, parseNat digits))
    else none

def lastColon (path : JsString) : Option (JsString × JsString) :=
  let suffix := path.rtakeWhile (· ≠ 0x3a)
  if suffix.length < path.length then
    some (path.take (path.length - suffix.length - 1), suffix)
  else none

theorem length_lastColon {path base suffix : JsString} (h : lastColon path = some (base, suffix)) :
    base.length < path.length := by
  simp only [lastColon] at h
  split_ifs at h with hlt
  obtain ⟨rfl, -⟩ := Prod.mk.inj (some.inj h)
  rw [List.length_take]
  omega

def rangeParts (suffix : JsString) : List JsString := suffix.splitOn 0x2c

def isRangeList (suffix : JsString) : Bool :=
  (rangeParts suffix).all fun part => (readRange part).isSome

/-- `readBasePath`: the path without the selectors of lines and modes at its end. -/
def readBasePath (path : JsString) : JsString :=
  match _h : lastColon path with
  | some (base, suffix) =>
    if suffix = js "raw" ∨ suffix = js "conflicts" ∨ isRangeList suffix = true then
      readBasePath base
    else path
  | none => path
termination_by path.length
decreasing_by exact length_lastColon _h

/-- The lines of a read; no `stop` is the end of the file. -/
structure ReadLineRange where
  start : Nat
  stop : Option Nat
  deriving DecidableEq

def defaultReadLineLimit : Nat := 500

/-- The path without `:raw` and `:conflicts` at its end, and whether the first was there. -/
def stripModes (path : JsString) : JsString × Bool :=
  match _h : lastColon path with
  | some (base, suffix) =>
    if suffix = js "raw" then ((stripModes base).1, true)
    else if suffix = js "conflicts" then stripModes base
    else (path, false)
  | none => (path, false)
termination_by path.length
decreasing_by all_goals exact length_lastColon _h

def partRange (part : JsString) : Option ReadLineRange :=
  match readRange part with
  | none => none
  | some (start, tail) =>
    let stop :=
      match tail with
      | some (sign, n) => if sign = 0x2b then (start : Int) + n - 1 else n
      | none => (start : Int) + defaultReadLineLimit - 1
    if 0 < start ∧ (start : Int) ≤ stop then some ⟨start, some stop.toNat⟩ else none

def readLineRanges (path : JsString) : List ReadLineRange :=
  let (target, raw) := stripModes path
  match lastColon target with
  | some (_, suffix) =>
    if isRangeList suffix = true then (rangeParts suffix).filterMap partRange
    else if raw then [⟨1, none⟩] else []
  | none => if raw then [⟨1, none⟩] else []

/-- One end of a range lies before another. -/
def stopsBefore : Option Nat → Option Nat → Bool
  | some a, some b => a < b
  | some _, none => true
  | none, _ => false

def strictlyContainsReadRange (container contained : ReadLineRange) : Bool :=
  container.start ≤ contained.start && !stopsBefore container.stop contained.stop &&
    (container.start < contained.start || stopsBefore contained.stop container.stop)

/-- `readSupersedesRead`, for the paths of the two reads. -/
def readSupersedesRead (later earlier : JsString) : Bool :=
  match readLineRanges later, readLineRanges earlier with
  | [container], [contained] => strictlyContainsReadRange container contained
  | _, _ => false

/-- What follows a word and the space behind it. -/
def wordAndSpace (word text : JsString) : Option JsString := literal (word ++ [0x20]) text

/-- A word, and `\b`. -/
def wordHere (word text : JsString) : Bool :=
  match literal word text with
  | some rest => !rest.head?.any isWord
  | none => false

/-- `IDEMPOTENT_BASH_COMMAND`, on a command with single spaces. -/
def isIdempotentBashCommand (command : JsString) : Bool :=
  let after := fun names : List JsString => names.filterMap (wordAndSpace · command)
  let scripts := after [js "bun", js "npm", js "pnpm", js "yarn"]
  (scripts ++ scripts.filterMap (wordAndSpace (js "run"))).any (fun rest =>
      wordHere (js "test") rest || wordHere (js "build") rest) ||
    (after [js "git"]).any (wordHere (js "status")) ||
    (after [js "cargo", js "make", js "just"]).any (wordHere (js "build"))

def normalizedIdempotentBashCommand : Option JsString :=
  if call.name ≠ js "bash" then none
  else
    match getField call.arguments (js "command") with
    | .string command =>
      let normalized :=
        [(0x20 : CodeUnit)].intercalate ((command.splitOnP isWhitespace).filter (· ≠ []))
      if normalized.any (fun u => u == 0x3b || u == 0x26 || u == 0x7c) = true ∨
          isIdempotentBashCommand normalized = false then none
      else
        let cwd :=
          match getField call.arguments (js "cwd") with
          | .string cwd => .string cwd
          | _ => .undefined
        some (jsonText (.array [.string normalized, cwd] : JsValue N))
    | _ => none

/-- `JSON.stringify` of an array, from the texts of its items. -/
def jsonArray (texts : List JsString) : JsString := js "[" ++ joinComma texts ++ js "]"

def patternKey (pattern : JsString) : JsString :=
  let pathList := match getField call.arguments (js "paths") with
    | .array paths => paths.filter fun p => match p with
      | .string _ => true
      | _ => false
    | _ => []
  let skip := match getField call.arguments (js "skip") with
    | .number n => jsonText (.number n)
    | _ => js "0"
  let caseInsensitive := match getField call.arguments (js "i") with
    | .boolean b => b
    | _ => false
  let gitignore := match getField call.arguments (js "gitignore") with
    | .boolean b => b
    | _ => true
  jsonArray [jsonStringify call.name, jsonStringify (js "pattern"), jsonStringify pattern,
    jsonText (.array pathList), skip, jsonText (.boolean caseInsensitive : JsValue N),
    jsonText (.boolean gitignore : JsValue N)]

def toolTargetKey : Option JsString :=
  match toolCallPath call with
  | some path =>
    some (jsonArray [jsonStringify call.name, jsonStringify (js "path"), jsonStringify path])
  | none =>
    match normalizedIdempotentBashCommand call with
    | some command =>
      some (jsonArray
        [jsonStringify call.name, jsonStringify (js "command"), jsonStringify command])
    | none =>
      match getField call.arguments (js "pattern") with
      | .string pattern => if 0 < pattern.length then some (patternKey call pattern) else none
      | _ => none

/-- The texts among values that are not empty. -/
def filePaths (values : List (JsValue N)) : List JsString :=
  values.filterMap fun v => match v with
    | .string file => if 0 < file.length then some file else none
    | _ => none

/-- `resultDetailFiles`: the files of a change that the details mark as applied. -/
def resultDetailFiles (message : ToolResultHead N) : List JsString :=
  let applied := [message.details, prop message.details (js "sourceResultDetails")].findSome?
    fun details => match prop details (js "applied"), prop details (js "files") with
      | .boolean true, .array files => some (filePaths files)
      | _, _ => none
  applied.getD []

/-- The paths of the file results with or without an error. -/
def perFilePaths (message : ToolResultHead N) (failed : Bool) : List JsString :=
  match prop message.details (js "perFileResults") with
  | .array perFile => perFile.filterMap fun item =>
      match prop item (js "path"), prop item (js "isError") with
      | .string path, .boolean true => if failed then some path else none
      | .string path, _ => if failed then none else some path
      | _, _ => none
  | _ => []

/-- `failedEditPaths`: a path with a success among its results did not fail. -/
def failedEditPaths (message : ToolResultHead N) : List JsString :=
  (perFilePaths message true).filter fun path => path ∉ perFilePaths message false

def readResolvedPath (message : ToolResultHead N) : Option JsString :=
  match prop message.details (js "resolvedPath") with
  | .string resolved => if 0 < resolved.length then some resolved else none
  | _ => none

def toolCalls : SessionEntry N → List (ToolCall N)
  | .message (.assistant content) => content.filterMap fun block => match block with
    | .toolCall call => some call
    | _ => none
  | _ => []

/-- The call of an id: of several the last. -/
def callById (calls : List (ToolCall N)) (id : JsString) : Option (ToolCall N) :=
  calls.reverse.find? fun call => call.id = id

/-- A result that did not fail, with the key of its lookup. -/
structure ResultMeta (N : Type) where
  index : Nat
  key : Option JsString
  call : ToolCall N
  message : ToolResultHead N

/-- The maps of the first pass, each key with the index it was last set to. -/
structure StalenessScan (N : Type) where
  lastResultIndexByKey : JsString → Option Nat
  resultMeta : List (ResultMeta N)
  lastEditIndexByPath : JsString → Option Nat

def setAll (map : JsString → Option Nat) (keys : List JsString) (index : Nat) :
    JsString → Option Nat :=
  fun key => if key ∈ keys then some index else map key

/-- The files that an edit without an error changed. -/
def editedPaths (message : ToolResultHead N) : List JsString :=
  if call.name ∈ editToolNames then
    ((editToolPathGroups call).filter fun group =>
      !group.any (· ∈ failedEditPaths message)).flatten
  else []

def scanResult (calls : List (ToolCall N)) (scan : StalenessScan N)
    (result : Option (ToolResultHead N) × Nat) : StalenessScan N :=
  match result with
  | (none, _) => scan
  | (some message, i) =>
    match callById calls message.toolCallId with
    | none => scan
    | some call =>
      -- files are taken from details before errors are left out
      let scan :=
        if call.name = js "resolve" ∨ call.name = js "ast_edit" then
          { scan with
            lastEditIndexByPath :=
              setAll scan.lastEditIndexByPath (resultDetailFiles message) i }
        else scan
      if message.isError then scan
      else
        let key := toolTargetKey call
        { lastResultIndexByKey := setAll scan.lastResultIndexByKey key.toList i
          resultMeta := scan.resultMeta ++ [⟨i, key, call, message⟩]
          lastEditIndexByPath := setAll scan.lastEditIndexByPath (editedPaths call message) i }

/-- A later result has the same key. -/
def supersededByResult (scan : StalenessScan N) (result : ResultMeta N) : Bool :=
  match result.key with
  | some key => (scan.lastResultIndexByKey key).any (result.index < ·)
  | none => false

/-- The paths under which an edit of the file that was read may be known. -/
def lookupPaths (result : ResultMeta N) : List JsString :=
  ((toolCallPath result.call).map readBasePath).toList ++ (readResolvedPath result.message).toList

/-- A later edit changed the file that was read. -/
def supersededByEdit (scan : StalenessScan N) (result : ResultMeta N) : Bool :=
  result.call.name = js "read" &&
    (lookupPaths result).any fun path => (scan.lastEditIndexByPath path).any (result.index < ·)

def readPath (result : ResultMeta N) : Option JsString :=
  if result.call.name = js "read" then toolCallPath result.call else none

/-- A later read of the same file has all the lines of this one and more. -/
def supersededByRead (scan : StalenessScan N) (result : ResultMeta N) : Bool :=
  (readPath result).any fun path =>
    scan.resultMeta.any fun later =>
      result.index < later.index &&
        (readPath later).any fun laterPath =>
          readBasePath laterPath = readBasePath path && readSupersedesRead laterPath path

def staleIndices (calls : List (ToolCall N)) (results : List (Option (ToolResultHead N))) :
    List Nat :=
  let scan := results.zipIdx.foldl (scanResult calls) ⟨fun _ => none, [], fun _ => none⟩
  (scan.resultMeta.filter fun result => supersededByResult scan result ||
    supersededByEdit scan result || supersededByRead scan result).map ResultMeta.index

/-- The tool result of an entry, less its output. -/
def resultHead (entry : SessionEntry N) : Option (ToolResultHead N) :=
  (getToolResultMessage entry).map ToolResultMessage.toToolResultHead

def buildStalenessIndex (entries : List (SessionEntry N)) : List Nat :=
  staleIndices (entries.flatMap toolCalls) (entries.map resultHead)

/-- **Staleness does not depend on outputs**: it is the same for entries with the same
calls and the same results, less their outputs. -/
theorem buildStalenessIndex_congr {entries entries' : List (SessionEntry N)}
    (hcalls : entries.map toolCalls = entries'.map toolCalls)
    (hheads : entries.map resultHead = entries'.map resultHead) :
    buildStalenessIndex entries = buildStalenessIndex entries' := by
  have hflat : entries.flatMap toolCalls = entries'.flatMap toolCalls := by
    rw [List.flatMap_def, List.flatMap_def, hcalls]
  rw [buildStalenessIndex, buildStalenessIndex, hflat, hheads]

end Pruning
end GajaeCode
