import GajaeCode.DiffPreview
import GajaeCode.HashlineInput
import GajaeCode.HashlineRecovery

/-! # Executing a hashline edit

`packages/coding-agent/src/hashline/execute.ts`.  An input with several sections
is checked section by section against the original files before anything is
written (`preflightHashlineSection`); then the sections are executed one after
the other, each reading its file again.  Sections were merged by the path as it is
written in the header, not by the file it names.

What the executor asks of the session and of the runtime is collected in
`EditHost`.  Nothing is assumed about it.
-/
namespace GajaeCode
open JsString

/-- What stands at a place of the file system: a file with its bytes, or something
whose reading fails with a message (a directory, say). -/
inductive FileEntry where
  | file (bytes : List UInt8)
  | unreadable (message : JsString)
deriving DecidableEq

/-- The session and the runtime, as the executor uses them. -/
structure EditHost where
  /-- `session.cwd` -/
  cwd : JsString
  /-- `resolvePlanPath(session, path)`: the absolute path of a header path. -/
  resolvePlanPath : JsString → Except HashlineError JsString
  /-- `enforcePlanModeWrite(session, path, { op: "update" })` -/
  enforcePlanModeWrite : JsString → Except HashlineError Unit
  /-- `assertEditableFileContent(content, path)` -/
  assertEditableFileContent : (content path : JsString) → Except HashlineError Unit
  /-- The place in the file system an absolute path leads to. -/
  place : JsString → JsString
  /-- `file.text()` with a byte order mark put back. -/
  decode : List UInt8 → JsString
  /-- `readEditableNotebookText`, on the bytes of the notebook. -/
  readEditableNotebookText : (bytes : List UInt8) → (path : JsString) →
    Except HashlineError JsString
  /-- `serializeEditedNotebookText`, on what is on disk. -/
  serializeEditedNotebookText : (onDisk : Option FileEntry) → (path text : JsString) →
    Except HashlineError JsString
  /-- The bytes `writethrough` leaves in the file, formatting included. -/
  writethrough : (absolutePath content : JsString) → List UInt8
  /-- `getHashlineApplyOptions(session)` -/
  applyOptions : HashlineApplyOptions
  xxHash32 : List UInt8 → UInt32
  diffPackage : DiffPackage

structure EditState where
  files : JsString → Option FileEntry
  cache : FileReadCache

/-- `normalizeToLF`: `text.replace(/\r\n?/g, "\n")`. -/
def normalizeToLF : JsString → JsString
  | [] => []
  | [u] => if u = CR then [LF] else [u]
  | u :: v :: rest =>
      if u = CR then
        if v = LF then LF :: normalizeToLF rest else LF :: normalizeToLF (v :: rest)
      else u :: normalizeToLF (v :: rest)

/-- `text.indexOf("\r\n")`. -/
def indexOfCRLF : JsString → Option Nat
  | u :: v :: rest =>
      if u = CR && v = LF then some 0 else (indexOfCRLF (v :: rest)).map (· + 1)
  | _ => none

def detectLineEnding (content : JsString) : JsString :=
  match content.idxOf? LF, indexOfCRLF content with
  | some lfIdx, some crlfIdx => if crlfIdx < lfIdx then [CR, LF] else [LF]
  | _, _ => [LF]

def restoreLineEndings (text ending : JsString) : JsString :=
  if ending = [CR, LF] then text.flatMap (fun u => if u = LF then [CR, LF] else [u]) else text

def stripBom : JsString → JsString × JsString
  | 0xfeff :: text => ([0xfeff], text)
  | text => ([], text)

/-- The last segment of a path, trailing slashes ignored. -/
def basename (p : JsString) : JsString :=
  ((p.splitOn slash).filter (fun segment => !segment.isEmpty)).getLast?.getD []

/-- `isNotebookPath`: `path.extname(filePath).toLowerCase() === ".ipynb"`.  A name
that is only the extension has none. -/
def isNotebookPath (filePath : JsString) : Bool :=
  let base := basename filePath
  let lower (u : CodeUnit) : CodeUnit := if 0x0041 ≤ u && u ≤ 0x005a then u + 0x0020 else u
  6 < base.length && (base.drop (base.length - 6)).map lower = js ".ipynb"

def maxEditFileBytes : Nat := 8 * 1024 * 1024

/-- `File not found: PATH`. -/
def fileNotFound (path : JsString) : HashlineError := .error (js "File not found: " ++ path)

section Execute
variable (host : EditHost)

/-- `readEditFileText` on what is on disk. -/
def readEditFileText (absolutePath path : JsString) : Option FileEntry →
    Except HashlineError JsString
  | none => .error (fileNotFound path)
  | some (.unreadable message) => .error (.error message)
  | some (.file bytes) =>
      if maxEditFileBytes < bytes.length then
        .error (.error (js "File too large to edit safely: " ++ path ++ js " is " ++
          ofNat bytes.length ++ js " bytes (limit " ++ ofNat maxEditFileBytes ++ js "). " ++
          js "Editing loads and diffs the whole file on the main thread; make a more targeted " ++
          js "change, split the file, or use a specialized tool."))
      else if isNotebookPath absolutePath then host.readEditableNotebookText bytes path
      else .ok (host.decode bytes)

structure ReadHashlineFileResult where
  «exists» : Bool
  rawContent : JsString

def readHashlineFile (absolutePath pathText : JsString) (onDisk : Option FileEntry) :
    Except HashlineError ReadHashlineFileResult :=
  match readEditFileText host absolutePath pathText onDisk with
  | .ok rawContent => .ok ⟨true, rawContent⟩
  | .error err => if err = fileNotFound pathText then .ok ⟨false, []⟩ else .error err

def serializeEditFileText (absolutePath path content : JsString) (onDisk : Option FileEntry) :
    Except HashlineError JsString :=
  if isNotebookPath absolutePath then host.serializeEditedNotebookText onDisk path content
  else .ok content

def hasAnchorScopedEdit (edits : List HashlineEdit) : Bool :=
  edits.any (fun edit =>
    match edit with
    | .delete _ _ _ | .insert (.beforeAnchor _) _ _ _ | .insert (.afterAnchor _) _ _ _ => true
    | .insert _ _ _ _ => false)

def formatNoChangeDiagnostic (pathText : JsString) : JsString :=
  js "Edits to " ++ pathText ++ js " resulted in no changes being made."

/-! ## One section -/

/-- A section with its file loaded: the locals that `preflightHashlineSection` and
`executeHashlineSection` compute in the same way. -/
structure LoadedSection where
  absolutePath : JsString
  parsed : ParsedHashline
  source : ReadHashlineFileResult
  bom : JsString
  text : JsString

/-- `normalizeToLF(text)`. -/
def LoadedSection.normalized (l : LoadedSection) : JsString := normalizeToLF l.text

variable (s : HashlineInputSection)

/-- The lines both functions start with: resolve, parse, check, read. -/
def loadSection (files : JsString → Option FileEntry) : Except HashlineError LoadedSection := do
  let absolutePath ← host.resolvePlanPath s.path
  let parsed ← parseHashlineWithWarnings host.xxHash32 s.diff
  host.enforcePlanModeWrite s.path
  let source ← readHashlineFile host absolutePath s.path (files (host.place absolutePath))
  if !source.exists && hasAnchorScopedEdit parsed.edits then .error (fileNotFound s.path)
  else
    (if source.exists then host.assertEditableFileContent source.rawContent s.path else .ok ())
    pure ⟨absolutePath, parsed, source, (stripBom source.rawContent).1,
      (stripBom source.rawContent).2⟩

/-- `applyHashlineEditsWithRecovery`: what it returns or throws, and the cache
afterwards. -/
def applyHashlineEditsWithRecovery (cache : FileReadCache) (absolutePath text : JsString)
    (edits : List HashlineEdit) : Except HashlineError HashlineApplyResult × FileReadCache :=
  match applyHashlineEdits host.xxHash32 text edits host.applyOptions with
  | .error (.mismatch mismatches fileLines) =>
      match tryRecoverHashlineWithCache host.xxHash32 host.diffPackage cache absolutePath text
        edits host.applyOptions with
      | (.error err, cache) => (.error err, cache)
      | (.ok none, cache) => (.error (.mismatch mismatches fileLines), cache)
      | (.ok (some recovered), cache) =>
          (.ok ⟨recovered.lines, recovered.firstChangedLine, recovered.warnings⟩, cache)
  | result => (result, cache)

/-- The edits of a loaded section applied to its text. -/
def applySection (cache : FileReadCache) (l : LoadedSection) :
    Except HashlineError HashlineApplyResult × FileReadCache :=
  applyHashlineEditsWithRecovery host cache l.absolutePath l.normalized l.parsed.edits

def preflightHashlineSection (st : EditState) : Except HashlineError Unit × EditState :=
  match loadSection host s st.files with
  | .error err => (.error err, st)
  | .ok l =>
      match applySection host st.cache l with
      | (.error err, cache) => (.error err, { st with cache })
      | (.ok result, cache) =>
          if l.normalized = result.lines then
            (.error (.error (formatNoChangeDiagnostic s.path)), { st with cache })
          else (.ok (), { st with cache })

/-- `op` of the result. -/
inductive EditOp where
  | create
  | update
deriving DecidableEq

/-- The tool result of one section: its text and the details.  Diagnostics and
output metadata are left out. -/
structure SectionResult where
  text : JsString
  diff : JsString
  firstChangedLine : Option Nat
  op : EditOp
deriving DecidableEq

def sectionResult (l : LoadedSection) (result : HashlineApplyResult) : SectionResult :=
  let diffResult := generateDiffString host.diffPackage.diffLines l.normalized result.lines 4
  let preview := (buildCompactHashlineDiffPreview host.xxHash32 diffResult.diff).preview
  let warnings := l.parsed.warnings ++ result.warnings
  let warningsBlock :=
    if warnings.isEmpty then [] else js "\n\nWarnings:\n" ++ unlines warnings
  let previewBlock := if preview.isEmpty then [] else LF :: preview
  let headline :=
    if !preview.isEmpty then s.path ++ js ":"
    else if l.source.exists then js "Updated " ++ s.path
    else js "Created " ++ s.path
  { text := headline ++ previewBlock ++ warningsBlock
    diff := diffResult.diff
    firstChangedLine := result.firstChangedLine.or diffResult.firstChangedLine
    op := if l.source.exists then .update else .create }

def editedText (l : LoadedSection) (result : HashlineApplyResult) : JsString :=
  l.bom ++ restoreLineEndings result.lines (detectLineEnding l.text)

def executeHashlineSection (st : EditState) : Except HashlineError SectionResult × EditState :=
  match loadSection host s st.files with
  | .error err => (.error err, st)
  | .ok l =>
      match applySection host st.cache l with
      | (.error err, cache) => (.error err, { st with cache })
      | (.ok result, cache) =>
          if l.normalized = result.lines then
            (.ok ⟨formatNoChangeDiagnostic s.path, [], none, .update⟩, { st with cache })
          else
            match serializeEditFileText host l.absolutePath s.path (editedText l result)
              (st.files (host.place l.absolutePath)) with
            | .error err => (.error err, { st with cache })
            | .ok finalContent =>
                (.ok (sectionResult host s l result),
                  { files := Function.update st.files (host.place l.absolutePath)
                      (some (.file (host.writethrough l.absolutePath finalContent)))
                    cache := cache.recordContiguous l.absolutePath 1 (lines result.lines) })

def preflightSections : List HashlineInputSection → EditState →
    Except HashlineError Unit × EditState
  | [], st => (.ok (), st)
  | s :: rest, st =>
      match preflightHashlineSection host s st with
      | (.error err, st) => (.error err, st)
      | (.ok (), st) => preflightSections rest st

def executeSections : List HashlineInputSection → EditState →
    Except HashlineError (List (JsString × SectionResult)) × EditState
  | [], st => (.ok [], st)
  | s :: rest, st =>
      match executeHashlineSection host s st with
      | (.error err, st) => (.error err, st)
      | (.ok result, st) =>
          match executeSections rest st with
          | (.error err, st) => (.error err, st)
          | (.ok results, st) => (.ok ((s.path, result) :: results), st)

/-- What the tool returns: one section's result, or all of them put together. -/
inductive EditToolResult where
  | single (result : SectionResult)
  | perFile (text diff : JsString) (results : List (JsString × SectionResult))
deriving DecidableEq

/-- The sections of an input, merged by header path. -/
def inputSections (input : JsString) (path : Option JsString) :
    Except HashlineError (List HashlineInputSection) := do
  let sections ← splitHashlineInputs input ⟨host.cwd, path⟩
  pure (mergeSamePathSections sections)

/-- Preflight of every section, then execution of every section. -/
def runSections (sections : List HashlineInputSection) (st : EditState) :
    Except HashlineError EditToolResult × EditState :=
  match preflightSections host sections st with
  | (.error err, st) => (.error err, st)
  | (.ok (), st) =>
      match executeSections host sections st with
      | (.error err, st) => (.error err, st)
      | (.ok results, st) =>
          (.ok (.perFile ((js "\n\n").intercalate (results.map (·.2.text)))
            (unlines (results.map (·.2.diff))) results), st)

def executeHashlineSingle (input : JsString) (path : Option JsString) (st : EditState) :
    Except HashlineError EditToolResult × EditState :=
  match inputSections host input path with
  | .error err => (.error err, st)
  | .ok [s] =>
      match executeHashlineSection host s st with
      | (.error err, st) => (.error err, st)
      | (.ok result, st) => (.ok (.single result), st)
  | .ok sections => runSections host sections st

end Execute
end GajaeCode
