import GajaeCode.SessionRecords

/-! # Persisting a session

`packages/coding-agent/src/session/session-manager.ts`.  Entries are appended synchronously: to
a writer kept open on the session file, or by rewriting the file.  Other work goes through the
persist queue: rewriting the file through a temporary one, and appending a header patch.  A
queued task is run in pieces, from one `await` to the next, and every synchronous call may come
between two pieces.

A writer stays on the file object it opened, so the file objects are numbered and the session
path leads to one of them.  Every call of the storage succeeds.
-/
namespace GajaeCode
open JsString

/-- The file objects, by number, and the one the session path leads to. -/
structure SessionDisk (M B : Type) where
  objects : List (List (SessionRecord M B))
  target : Option Nat
deriving DecidableEq

/-- The cached `NdjsonFileWriter`: its file object, and whether it is being closed. -/
structure PersistWriter where
  object : Nat
  closing : Bool
deriving DecidableEq

inductive PersistTask where
  /-- `#rewriteFile` -/
  | rewrite
  /-- `#persistPatch` of a header patch -/
  | patch (patch : HeaderPatch)
deriving DecidableEq

/-- Where the running task waits. -/
inductive PersistStage (M B : Type) where
  /-- in `#closePersistWriterInternal`, for the writer to close -/
  | closing
  /-- for `#closePersistWriterInternal` to return: there is no writer any more -/
  | released
  /-- for `Promise.all`: the entries prepared, and the header if that is a new object -/
  | preparing (header : Option SessionHeader) (entries : List (SessionEntry M B))
  /-- in `#writeEntriesAtomically`, with these records still to be written -/
  | writing (object : Nat) (rest : List (SessionRecord M B))
  /-- for the rename, after `flush`, `fsync` and `close` of the temporary file -/
  | replacing (object : Nat)
  /-- for `#replaceSessionFile` to return -/
  | renamed
  /-- for `writer.write` of a patch record -/
  | patching (object : Nat) (patch : HeaderPatch)
deriving DecidableEq

/-- The part of `SessionManager` that keeps the session file. -/
structure SessionManager (M B : Type) where
  /-- the header of `#fileEntries` -/
  header : SessionHeader
  /-- the other entries of `#fileEntries` -/
  entries : List (SessionEntry M B)
  titleSource : Option TitleSource
  flushed : Bool
  needsFullRewriteOnNextPersist : Bool
  ensuredOnDisk : Bool
  persistError : Bool
  persistWriter : Option PersistWriter
  queue : List PersistTask
  running : Option (PersistStage M B)
  disk : SessionDisk M B
deriving DecidableEq

/-- What the session manager asks of entries. -/
structure EntryCodec (M B : Type) where
  /-- `message.role === "assistant"` -/
  isAssistant : M → Bool
  /-- An entry materialized and prepared for persistence. -/
  prepareEntry : SessionEntry M B → SessionEntry M B

variable {M B : Type}

namespace SessionDisk

variable (d : SessionDisk M B)

def sessionFile : List (SessionRecord M B) :=
  (d.target.bind (d.objects[·]?)).getD []

/-- A line appended to a file object. -/
def write (object : Nat) (record : SessionRecord M B) : SessionDisk M B :=
  { d with objects := d.objects.modify object (· ++ [record]) }

/-- A new file object, at no path we follow. -/
def create (records : List (SessionRecord M B)) : SessionDisk M B :=
  { d with objects := d.objects ++ [records] }

def next : Nat := d.objects.length

/-- A file object renamed to the session path. -/
def rename (object : Nat) : SessionDisk M B := { d with target := some object }

end SessionDisk

namespace SessionManager

/-- `storage.existsSync(sessionFile)`. -/
def fileExists (s : SessionManager M B) : Bool := s.disk.target.isSome

/-- `#ensurePersistWriter`: the object of an open writer, or nothing while the cached
writer is being closed. -/
def ensurePersistWriter (s : SessionManager M B) : Option Nat × SessionManager M B :=
  match s.persistWriter with
  | some writer => (if writer.closing then none else some writer.object, s)
  | none =>
      match s.disk.target with
      | some object => (some object, { s with persistWriter := some ⟨object, false⟩ })
      | none =>
          -- opening for append creates the file
          (some s.disk.next,
            { s with
              persistWriter := some ⟨s.disk.next, false⟩
              disk := (s.disk.create []).rename s.disk.next })

section Codec
variable (codec : EntryCodec M B) (s : SessionManager M B)

/-- The entries as they are written to the file. -/
def preparedEntries : List (SessionEntry M B) :=
  s.entries.map codec.prepareEntry

/-- What the session file should be read back as. -/
def image : List (SessionFileEntry M B) :=
  transcript (prepareHeader s.header) (s.preparedEntries codec)

/-- `#fileEntries.some(e => e.type === "message" && e.message.role === "assistant")`. -/
def hasAssistant (entries : List (SessionEntry M B)) : Bool :=
  entries.any (fun e =>
    match e with
    | .message _ message => codec.isAssistant message
    | .other _ _ => false)

/-- The flags after a rewrite. -/
def flushedNow : SessionManager M B :=
  { s with needsFullRewriteOnNextPersist := false, flushed := true, ensuredOnDisk := true }

/-- `#rewriteFileSync`.  A writer that is being closed is only forgotten. -/
def rewriteFileSync : SessionManager M B :=
  flushedNow
    { s with
      persistWriter := none
      disk := (s.disk.create ((s.image codec).map SessionFileEntry.record)).rename s.disk.next }

def rewriteFile : SessionManager M B :=
  { s with queue := s.queue ++ [.rewrite] }

/-- `ensureOnDisk`.  Once its task is done it sets `#ensuredOnDisk`, which the
rewrite has done already. -/
def ensureOnDisk : SessionManager M B :=
  if s.flushed && !s.needsFullRewriteOnNextPersist then s else s.rewriteFile

/-- `_persist` of an entry that is in `#fileEntries` already. -/
def persist (entry : SessionEntry M B) : SessionManager M B :=
  if s.persistError then s
  else if !s.ensuredOnDisk && !hasAssistant codec s.entries then
    { s with flushed := false, ensuredOnDisk := false }
  else if s.needsFullRewriteOnNextPersist || !s.flushed then s.rewriteFileSync codec
  else
    match s.ensurePersistWriter with
    | (none, s) => s.rewriteFile
    | (some object, s) => { s with disk := s.disk.write object (.entry (codec.prepareEntry entry)) }

def appendEntry (entry : SessionEntry M B) : SessionManager M B :=
  persist codec { s with entries := s.entries ++ [entry] } entry

/-- `#persistPatch`, up to the queue. -/
def persistPatch (patch : HeaderPatch) : SessionManager M B :=
  if s.fileExists then { s with queue := s.queue ++ [.patch patch] } else s

def appendHeaderPatch (patch : HeaderPatch) : SessionManager M B :=
  { s with header := applyHeaderPatch s.header patch }.persistPatch patch

def sessionNameMaxChars : Nat := 1000

/-- `/[\u0000-\u001f\u007f-\u009f]/`. -/
def isControl (u : CodeUnit) : Bool := u ≤ 0x001f || (0x007f ≤ u && u ≤ 0x009f)

/-- `replace(/ +/g, " ")`. -/
def collapseSpaces : JsString → JsString
  | u :: v :: rest =>
      if u = 0x0020 && v = 0x0020 then collapseSpaces (v :: rest)
      else u :: collapseSpaces (v :: rest)
  | s => s

def sanitizeName (name : JsString) : JsString :=
  (trim (collapseSpaces (name.map (fun u => if isControl u then 0x0020 else u)))).take
    sessionNameMaxChars

/-- `setSessionName`.  A generated name does not replace the user's. -/
def setSessionName (name : JsString) (source : TitleSource) : SessionManager M B :=
  if s.titleSource = some .user && source = .auto then s
  else if (sanitizeName name).isEmpty then s
  else
    { s with titleSource := some source }.appendHeaderPatch (titlePatch (sanitizeName name) source)

/-- `#rewriteFileContents` up to its first `await`. -/
def startRewrite : SessionManager M B :=
  match s.persistWriter with
  | some writer =>
      { s with persistWriter := some { writer with closing := true }, running := some .closing }
  | none => { s with running := some .released }

/-- A task up to its first `await`. -/
def startTask : PersistTask → SessionManager M B
  | .rewrite => s.startRewrite
  | .patch patch =>
      if s.needsFullRewriteOnNextPersist || !s.flushed ||
          s.header.version.getD 1 < currentSessionVersion then s.startRewrite
      else
        match s.ensurePersistWriter with
        | (none, s) => s.startRewrite
        | (some object, s) => { s with running := some (.patching object patch) }

/-- The header among the prepared entries: a new object if preparing changed it, else
the one of `#fileEntries`, which later patches go on changing. -/
def prepareLiveHeader : Option SessionHeader :=
  if prepareHeader s.header = s.header then none else some (prepareHeader s.header)

/-- The running task from one `await` to the next. -/
def continueTask : PersistStage M B → SessionManager M B
  | .closing => { s with persistWriter := none, running := some .released }
  | .released =>
      { s with running := some (.preparing s.prepareLiveHeader (s.preparedEntries codec)) }
  | .preparing header entries =>
      -- the first `write` turns the header into its line
      { s with
        disk := s.disk.create []
        running := some (.writing s.disk.next
          ((transcript (header.getD s.header) entries).map SessionFileEntry.record)) }
  | .writing object (record :: rest) =>
      { s with disk := s.disk.write object record, running := some (.writing object rest) }
  | .writing object [] => { s with running := some (.replacing object) }
  | .replacing object => { s with disk := s.disk.rename object, running := some .renamed }
  | .renamed => flushedNow { s with running := none }
  | .patching object patch =>
      -- a writer that was closed meanwhile throws
      if s.persistWriter = some ⟨object, false⟩ then
        { s with disk := s.disk.write object (.headerPatch patch), running := none }
      else { s with persistError := true, running := none }

/-- The queue's next piece of work; nothing when it is idle. -/
def advance : Option (SessionManager M B) :=
  match s.running, s.queue with
  | some stage, _ => some (continueTask codec s stage)
  | none, task :: rest =>
      some (if s.persistError then { s with queue := rest }
        else startTask { s with queue := rest } task)
  | none, [] => none

/-- What can happen next. -/
inductive Action (M B : Type) where
  | append (entry : SessionEntry M B)
  | setSessionName (name : JsString) (source : TitleSource)
  | rewriteFile
  | ensureOnDisk
  | advance
deriving DecidableEq

def step : Action M B → Option (SessionManager M B)
  | .append entry => some (s.appendEntry codec entry)
  | .setSessionName name source => some (s.setSessionName name source)
  | .rewriteFile => some s.rewriteFile
  | .ensureOnDisk => some s.ensureOnDisk
  | .advance => s.advance codec

def run : List (Action M B) → SessionManager M B → Option (SessionManager M B)
  | [], s => some s
  | a :: rest, s => (s.step codec a).bind (run rest)

end Codec

/-- `#newSessionSync`: only the header, and nothing on disk. -/
structure Fresh (s : SessionManager M B) : Prop where
  version : s.header.version = some currentSessionVersion
  entries : s.entries = []
  flags : s.flushed = false ∧ s.needsFullRewriteOnNextPersist = false ∧ s.ensuredOnDisk = false
  noError : s.persistError = false
  noWriter : s.persistWriter = none
  idle : s.queue = [] ∧ s.running = none
  noFile : s.disk.target = none

/-- `setSessionFile` of a session of the current version: the file holds what is in
memory. -/
structure Opened (codec : EntryCodec M B) (s : SessionManager M B) : Prop where
  version : s.header.version = some currentSessionVersion
  flags : s.flushed = true ∧ s.needsFullRewriteOnNextPersist = false ∧ s.ensuredOnDisk = true
  noError : s.persistError = false
  noWriter : s.persistWriter = none
  idle : s.queue = [] ∧ s.running = none
  file : s.disk.target.isSome = true ∧
    ∀ object, s.disk.target = some object → object < s.disk.objects.length
  agrees : parseSessionEntries s.disk.sessionFile = s.image codec

def Idle (s : SessionManager M B) : Prop := s.queue = [] ∧ s.running = none

def OnDisk (s : SessionManager M B) : Prop := s.fileExists = true ∨ s.ensuredOnDisk = true

instance (s : SessionManager M B) : Decidable s.Idle :=
  decidable_of_iff (s.queue.isEmpty = true ∧ s.running.isNone = true) (by simp [Idle])

instance (s : SessionManager M B) : Decidable s.OnDisk := inferInstanceAs (Decidable (_ ∨ _))

/-- Once the queue is idle, a session on disk is read back as it is in memory. -/
def KeepsUp (codec : EntryCodec M B) (s : SessionManager M B) : Prop :=
  s.Idle → s.OnDisk → s.fileExists = true ∧
    parseSessionEntries s.disk.sessionFile = s.image codec

end SessionManager
end GajaeCode
