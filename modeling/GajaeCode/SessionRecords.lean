import GajaeCode.JsString

/-! # Session transcripts

`packages/coding-agent/src/session/session-manager.ts`: the records of a session
file and their replay (`parseSessionEntries`).  A transcript is a header, then
entries; patch records change the header or the message of an earlier entry.  A
file is the list of its lines' records.

The message of an entry and the bodies of the other kinds of entries are left
open (`M` and `B`): the persistence code hands them through.
-/
namespace GajaeCode
open JsString

/-- `"auto" | "user"`. -/
inductive TitleSource where
  | auto
  | user
deriving DecidableEq

structure SessionHeader where
  version : Option Nat
  id : JsString
  title : Option JsString
  titleSource : Option TitleSource
  timestamp : JsString
  cwd : JsString
  parentSession : Option JsString
deriving DecidableEq

def currentSessionVersion : Nat := 4

/-- `SessionEntry`: a message, or one of the other kinds. -/
inductive SessionEntry (M B : Type) where
  | message (id : JsString) (message : M)
  | other (id : JsString) (body : B)
deriving DecidableEq

/-- `FileEntry`. -/
inductive SessionFileEntry (M B : Type) where
  | session (header : SessionHeader)
  | entry (entry : SessionEntry M B)
deriving DecidableEq

/-- The `patch` of a `HeaderPatchRecord`. -/
structure HeaderPatch where
  cwd : Option JsString
  title : Option JsString
  titleSource : Option TitleSource
deriving DecidableEq

/-- A record of the file: a `FileEntry` or a `SessionPatchRecord`. -/
inductive SessionRecord (M B : Type) where
  | session (header : SessionHeader)
  | entry (entry : SessionEntry M B)
  | headerPatch (patch : HeaderPatch)
  | entryPatch (entryId : JsString) (message : Option M)
deriving DecidableEq

variable {M B : Type}

def SessionEntry.id : SessionEntry M B → JsString
  | .message id _ => id
  | .other id _ => id

def SessionFileEntry.record : SessionFileEntry M B → SessionRecord M B
  | .session header => .session header
  | .entry e => .entry e

/-! ## Replay -/

def applyHeaderPatch (header : SessionHeader) (patch : HeaderPatch) : SessionHeader :=
  { header with
    cwd := patch.cwd.getD header.cwd
    title := patch.title.or header.title
    titleSource := patch.titleSource.or header.titleSource }

/-- `entries.find(e => e.type === "session")`: what `header` refers to. -/
def sessionHeader? : List (SessionFileEntry M B) → Option SessionHeader
  | [] => none
  | .session header :: _ => some header
  | .entry _ :: rest => sessionHeader? rest

/-- `header?.version === CURRENT_SESSION_VERSION`. -/
def acceptsPatches (entries : List (SessionFileEntry M B)) : Bool :=
  (sessionHeader? entries).any (fun header => header.version = some currentSessionVersion)

def patchHeader (patch : HeaderPatch) :
    List (SessionFileEntry M B) → List (SessionFileEntry M B)
  | [] => []
  | .session header :: rest => .session (applyHeaderPatch header patch) :: rest
  | .entry entry :: rest => .entry entry :: patchHeader patch rest

/-- The first entry with the id, if it is a message, gets the new message. -/
def patchFirstEntry (entryId : JsString) (message : M) :
    List (SessionFileEntry M B) → List (SessionFileEntry M B)
  | [] => []
  | .session header :: rest => .session header :: patchFirstEntry entryId message rest
  | .entry (.message id old) :: rest =>
      if id = entryId then .entry (.message id message) :: rest
      else .entry (.message id old) :: patchFirstEntry entryId message rest
  | .entry (.other id body) :: rest =>
      if id = entryId then .entry (.other id body) :: rest
      else .entry (.other id body) :: patchFirstEntry entryId message rest

/-- `entriesById.get(entryId)` is the last entry with the id. -/
def patchEntry (entryId : JsString) (message : M) (entries : List (SessionFileEntry M B)) :
    List (SessionFileEntry M B) :=
  (patchFirstEntry entryId message entries.reverse).reverse

/-- One round of the loop of `parseSessionEntries`. -/
def replayRecord (entries : List (SessionFileEntry M B)) :
    SessionRecord M B → List (SessionFileEntry M B)
  | .headerPatch patch => if acceptsPatches entries then patchHeader patch entries else entries
  | .entryPatch entryId message =>
      if acceptsPatches entries then
        match message with
        | some message => patchEntry entryId message entries
        | none => entries
      else entries
  | .session header => entries ++ [.session header]
  | .entry entry => entries ++ [.entry entry]

/-- `parseSessionEntries`, on the records of the lines. -/
def parseSessionEntries (records : List (SessionRecord M B)) : List (SessionFileEntry M B) :=
  records.foldl replayRecord []

/-- A transcript: the header first, then the entries. -/
def transcript (header : SessionHeader) (entries : List (SessionEntry M B)) :
    List (SessionFileEntry M B) :=
  .session header :: entries.map .entry

section Replay
variable {records : List (SessionRecord M B)} {header : SessionHeader}
  {entries : List (SessionEntry M B)}

theorem parseSessionEntries_snoc (records : List (SessionRecord M B)) (r : SessionRecord M B) :
    parseSessionEntries (records ++ [r]) = replayRecord (parseSessionEntries records) r := by
  simp [parseSessionEntries]

section
variable (h : parseSessionEntries records = transcript header entries)
include h

theorem parseSessionEntries_snoc_entry (entry : SessionEntry M B) :
    parseSessionEntries (records ++ [.entry entry]) = transcript header (entries ++ [entry]) := by
  rw [parseSessionEntries_snoc, h]
  simp [replayRecord, transcript]

/-- A header patch at the end of the file changes the header. -/
theorem parseSessionEntries_snoc_patch (hversion : header.version = some currentSessionVersion)
    (patch : HeaderPatch) : parseSessionEntries (records ++ [.headerPatch patch]) =
      transcript (applyHeaderPatch header patch) entries := by
  rw [parseSessionEntries_snoc, h]
  simp [replayRecord, transcript, acceptsPatches, sessionHeader?, patchHeader, hversion]

end

/-- A file without patches is read back as it was written. -/
theorem parseSessionEntries_record (fileEntries : List (SessionFileEntry M B)) :
    parseSessionEntries (fileEntries.map SessionFileEntry.record) = fileEntries := by
  induction fileEntries using List.reverseRecOn with
  | nil => rfl
  | append_singleton rest e ih =>
    rw [List.map_append, List.map_singleton, parseSessionEntries_snoc, ih]
    cases e <;> rfl

end Replay

def maxPersistChars : Nat := 500000

def truncationNotice : JsString := js "\n\n[Session persistence truncated large content]"

def truncateString (value : JsString) (maxLength : Nat) : JsString :=
  if value.length ≤ maxLength then value
  else
    let truncated := value.take maxLength
    if truncated.getLast?.any isHighSurrogate then truncated.dropLast else truncated

/-- `truncateForPersistence` of a string field. -/
def truncateField (value : JsString) : JsString :=
  if maxPersistChars < value.length then
    truncateString value (maxPersistChars - truncationNotice.length) ++ truncationNotice
  else value

/-- `prepareEntryForPersistence` of the header: every string field truncated. -/
def prepareHeader (header : SessionHeader) : SessionHeader :=
  { header with
    id := truncateField header.id
    title := header.title.map truncateField
    timestamp := truncateField header.timestamp
    cwd := truncateField header.cwd
    parentSession := header.parentSession.map truncateField }

/-- The patch of a renaming: `{ title, titleSource }`. -/
def titlePatch (title : JsString) (source : TitleSource) : HeaderPatch :=
  ⟨none, some title, some source⟩

/-- A patch as a renaming makes it: its title is short. -/
def IsRenaming (patch : HeaderPatch) : Prop :=
  ∃ title source, patch = titlePatch title source ∧ title.length ≤ maxPersistChars

theorem applyHeaderPatch_renaming {p q : HeaderPatch} (hp : IsRenaming p) (hq : IsRenaming q)
    (header : SessionHeader) :
    applyHeaderPatch (applyHeaderPatch header p) q = applyHeaderPatch header q := by
  obtain ⟨_, _, rfl, _⟩ := hp
  obtain ⟨_, _, rfl, _⟩ := hq
  rfl

theorem prepareHeader_applyHeaderPatch {p : HeaderPatch} (hp : IsRenaming p)
    (header : SessionHeader) :
    prepareHeader (applyHeaderPatch header p) = applyHeaderPatch (prepareHeader header) p := by
  obtain ⟨title, source, rfl, hshort⟩ := hp
  have hfield : truncateField title = title := if_neg (by omega)
  simp [prepareHeader, applyHeaderPatch, titlePatch, hfield]

end GajaeCode
