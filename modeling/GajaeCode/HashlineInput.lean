import GajaeCode.HashlineParser

/-! # Hashline input: sections and their headers

`packages/coding-agent/src/hashline/input.ts`.  The input of an edit is a list of
sections; a line `§PATH` starts one.  Absolute paths below the working directory
are made relative to it, other spellings are kept as they are written.
-/
namespace GajaeCode
open JsString

/-! ## POSIX paths

`path.isAbsolute`, `path.resolve` and `path.relative` of the runtime. -/

/-- `/`. -/
def slash : CodeUnit := 0x002f

/-- `path.isAbsolute(p)`. -/
def isAbsolutePath (p : JsString) : Bool := p.head? == some slash

/-- One segment on top of the resolved ones. -/
def pushSegment (resolved : List JsString) (segment : JsString) : List JsString :=
  if segment.isEmpty || segment = js "." then resolved
  else if segment = js ".." then resolved.dropLast
  else resolved ++ [segment]

/-- The resolved segments of an absolute path. -/
def resolvedSegments (p : JsString) : List JsString := (p.splitOn slash).foldl pushSegment []

def absolutePath (segments : List JsString) : JsString := slash :: [slash].intercalate segments

/-- `path.resolve(base, p)` for an absolute base. -/
def pathResolve (base p : JsString) : JsString :=
  absolutePath (resolvedSegments (if isAbsolutePath p then p else base ++ slash :: p))

/-- The segments of `path.relative`: up from the rest of the one, down to the rest
of the other. -/
def relativeSegments : List JsString → List JsString → List JsString
  | a :: rest, b :: rest' =>
      if a = b then relativeSegments rest rest'
      else (a :: rest).map (fun _ => js "..") ++ b :: rest'
  | rest, rest' => rest.map (fun _ => js "..") ++ rest'

/-- `path.relative(base, p)` for resolved paths. -/
def pathRelative (base p : JsString) : JsString :=
  [slash].intercalate (relativeSegments (resolvedSegments base) (resolvedSegments p))

/-! ## Headers -/

structure HashlineInputSection where
  path : JsString
  diff : JsString
deriving DecidableEq

/-- `SplitHashlineOptions`.  The working directory is the session's, an absolute
path. -/
structure SplitHashlineOptions where
  cwd : JsString
  path : Option JsString
deriving DecidableEq

def unquoteHashlinePath (pathText : JsString) : JsString :=
  if pathText.length < 2 then pathText
  else if (pathText.head? = some 0x0022 || pathText.head? = some 0x0027) &&
      pathText.head? = pathText.getLast? then pathText.tail.dropLast
  else pathText

def normalizeHashlinePath (rawPath cwd : JsString) : JsString :=
  let unquoted := unquoteHashlinePath (trim rawPath)
  if cwd.isEmpty || !isAbsolutePath unquoted then unquoted
  else
    let relative := pathRelative (pathResolve cwd cwd) (pathResolve cwd unquoted)
    let isWithinCwd :=
      relative.isEmpty || (!(js "..").isPrefixOf relative && !isAbsolutePath relative)
    if isWithinCwd then (if relative.isEmpty then js "." else relative) else unquoted

/-- The message for a header without a path. -/
def emptyHeader : HashlineError :=
  .error (js "Input header \"§\" is empty; provide a file path.")

/-- `parseHashlineHeaderLine`; `none` is `null`. -/
def parseHashlineHeaderLine (line cwd : JsString) :
    Except HashlineError (Option HashlineInputSection) :=
  let trimmed := trimEnd line
  if trimmed.head? ≠ some hlFilePrefix then .ok none
  else
    let rest := trimmed.dropWhile (· == hlFilePrefix)
    if (trim rest).isEmpty then .error emptyHeader
    else
      let parsedPath := normalizeHashlinePath rest cwd
      if parsedPath.isEmpty then .error emptyHeader else .ok (some ⟨parsedPath, []⟩)

def isPatchEnvelopeMarker (line : JsString) : Bool :=
  trimEnd line = beginPatchMarker || trimEnd line = endPatchMarker

def dropByteOrderMark : JsString → JsString
  | 0xfeff :: rest => rest
  | text => text

/-- The `while` loop of `stripLeadingBlankLines`. -/
def dropBlankLines : List JsString → List JsString
  | [] => []
  | head :: rest =>
      if (trim (dropCR head)).isEmpty || trimEnd (dropCR head) = beginPatchMarker then
        dropBlankLines rest
      else head :: rest

def stripLeadingBlankLines (input : JsString) : JsString :=
  unlines (dropBlankLines (lines (dropByteOrderMark input)))

def containsRecognizableHashlineOperations (input : JsString) : Bool :=
  (splitLines input).any (fun line => line.head?.any isOpChar)

/-- Whether some line is a header; the first malformed one before that throws. -/
def hasExplicitHeader (cwd : JsString) : List JsString → Except HashlineError Bool
  | [] => .ok false
  | line :: rest => do
      let header ← parseHashlineHeaderLine line cwd
      if header.isSome then pure true else hasExplicitHeader cwd rest

def normalizeFallbackInput (input : JsString) (options : SplitHashlineOptions) :
    Except HashlineError JsString := do
  let explicit ← hasExplicitHeader options.cwd (splitLines (dropByteOrderMark input))
  if explicit then pure input
  else
    match options.path with
    | none => pure input
    | some path =>
        if path.isEmpty || !containsRecognizableHashlineOperations input then pure input
        else
          let fallbackPath := normalizeHashlinePath path options.cwd
          if fallbackPath.isEmpty then pure input
          else pure (hlFilePrefix :: (fallbackPath ++ LF :: input))

/-- `flush`: the section collected so far, if it has a path and an operation. -/
def flushSection (currentPath : JsString) (currentLines : List JsString) :
    List HashlineInputSection :=
  if currentPath.isEmpty then []
  else if currentLines.any (fun line => !(trim line).isEmpty) then
    [⟨currentPath, unlines currentLines⟩]
  else []

/-- The loop over the lines. -/
def splitSections (cwd : JsString) : List JsString → (currentPath : JsString) →
    (currentLines : List JsString) → Except HashlineError (List HashlineInputSection)
  | [], currentPath, currentLines => .ok (flushSection currentPath currentLines)
  | line :: rest, currentPath, currentLines =>
      if trimEnd line = endPatchMarker || trimEnd line = abortMarker then
        .ok (flushSection currentPath currentLines)
      else if isPatchEnvelopeMarker line then splitSections cwd rest currentPath currentLines
      else do
        match ← parseHashlineHeaderLine line cwd with
        | some header =>
            let sections ← splitSections cwd rest header.path []
            pure (flushSection currentPath currentLines ++ sections)
        | none => splitSections cwd rest currentPath (currentLines ++ [line])

def splitHashlineInputs (input : JsString) (options : SplitHashlineOptions) :
    Except HashlineError (List HashlineInputSection) := do
  let normalized ← normalizeFallbackInput input options
  let pieces := splitLines (stripLeadingBlankLines normalized)
  let firstLine := pieces.head?.getD []
  match ← parseHashlineHeaderLine firstLine options.cwd with
  | none => .error (.error
      (js "input must begin with \"§PATH\" on the first non-blank line; got: " ++
        jsonStringify (firstLine.take 120) ++
        js ". Example: \"§src/foo.ts\" then edit ops."))
  | some _ => splitSections options.cwd pieces [] []

/-- Adds a diff to the entry of its path, or a new entry. -/
def addSection (byPath : List (JsString × List JsString)) (section_ : HashlineInputSection) :
    List (JsString × List JsString) :=
  if byPath.any (fun e => e.1 = section_.path) then
    byPath.map (fun e => if e.1 = section_.path then (e.1, e.2 ++ [section_.diff]) else e)
  else byPath ++ [(section_.path, [section_.diff])]

/-- `mergeSamePathSections` of `execute.ts`: one section per header path, as
written, in the order of first occurrence. -/
def mergeSamePathSections (sections : List HashlineInputSection) : List HashlineInputSection :=
  (sections.foldl addSection []).map (fun e => ⟨e.1, unlines e.2⟩)

/-- Two spellings of one path stay two sections; an absolute path below the
working directory joins its relative spelling. -/
example : (splitHashlineInputs (js "§a.ts\n»BOF\nx\n§./a.ts\n»BOF\ny\n§/w/a.ts\n»BOF\nz")
    ⟨js "/w", none⟩).map (fun sections => (mergeSamePathSections sections).map (·.path)) =
      .ok [js "a.ts", js "./a.ts"] := by
  decide

end GajaeCode
