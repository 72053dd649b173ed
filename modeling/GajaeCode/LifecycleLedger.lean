import GajaeCode.LifecycleEntries

/-! # The lifecycle ledger

The broker records what it does for a request in a file of JSON lines: one row when the request
is accepted, one for every later state, each with the identity of the request.
`LifecycleLedger` is that file with what is kept of it in memory; the operations are opening,
which replays the rows and closes what a crash has left open, `begin`, `transition`, appending,
which rewrites a file that grows too long, and `readTerminal`, which changes nothing.

Bytes are bytes and rows are JSON, so a line that a crash has cut is a line like any other.  A
file that is not there is the empty one.  A ledger also lists the writes it has made, which the
source does not; it is what a crash is stated with.
-/
namespace GajaeCode
open JsString JsValue JsonParse

variable {N : Type} [JsNumber N]

structure LifecycleLedgerLimits where
  maxBytes : Nat
  maxLineBytes : Nat
  maxRows : Nat
  deriving DecidableEq

def DEFAULT_LIFECYCLE_LEDGER_LIMITS : LifecycleLedgerLimits where
  maxBytes := 64 * 1024 * 1024
  maxLineBytes := 8 * 1024 * 1024
  maxRows := 10000

inductive LedgerError (N : Type) where
  | fileTooLong
  | tooManyRows
  | rowTooLong
  | unsupportedStateVersion (version : N)
  | noAnchor
  | compactionTooLong
  | appendTooLong
  | unknownIdentity

/-- `new TextDecoder("utf-8", { fatal: true }).decode(bytes)`. -/
def decodeLifecycleUtf8 (bytes : List UInt8) : Option JsString := decodeFatal bytes

def parseLifecycleJson (bytes : List UInt8) : Option (JsValue N) :=
  (decodeLifecycleUtf8 bytes).bind parse

theorem wellKeyed_parseLifecycleJson {bytes : List UInt8} {value : JsValue N}
    (h : parseLifecycleJson bytes = some value) : WellKeyed value := by
  obtain ⟨text, -, hparse⟩ := Option.bind_eq_some_iff.mp h
  exact wellKeyed_parse hparse

/-- What a line is to a reader of the ledger. -/
inductive LedgerRow (N : Type) where
  | corrupt
  | unsupported (version : N)
  | entry (entry : LifecycleLedgerEntry N)

/-- Parses a line, then looks at its version, then at its fields. -/
def readRow [DecidableEq N] (line : List UInt8) : LedgerRow N :=
  match h : parseLifecycleJson line with
  | none => .corrupt
  | some value =>
    match newerVersion value with
    | some version => .unsupported version
    | none =>
      match toEntry value (wellKeyed_parseLifecycleJson h) with
      | none => .corrupt
      | some entry => .entry entry

/-- The pieces between line feeds that are not empty. -/
def rows (file : List UInt8) : List (List UInt8) := (file.splitOn 0x0a).filter (fun l => l ≠ [])

def rowLine (entry : LifecycleLedgerEntry N) : List UInt8 := jsonBytes entry.toValue ++ [0x0a]

/-- What is written to the file: a line feed that ends a torn tail, a row at the end, or
all of it anew. -/
inductive LedgerWrite (N : Type) where
  | sealTail
  | row (entry : LifecycleLedgerEntry N)
  | snapshot (entries : List (LifecycleLedgerEntry N))

def LedgerWrite.apply (file : List UInt8) : LedgerWrite N → List UInt8
  | sealTail => file ++ [0x0a]
  | row entry => file ++ rowLine entry
  | snapshot entries => entries.flatMap rowLine

structure LifecycleLedger (N : Type) where
  limits : LifecycleLedgerLimits
  file : List UInt8
  /-- the writes since the ledger was opened, in order -/
  writes : List (LedgerWrite N)
  entries : List (LifecycleLedgerEntry N)
  byIdentity : InsertionMap JsString (LifecycleLedgerEntry N)
  rowCount : Nat
  byteCount : Nat

namespace LifecycleLedger

/-- A ledger before it was opened. -/
def unopened (limits : LifecycleLedgerLimits) (file : List UInt8) : LifecycleLedger N :=
  ⟨limits, file, [], [], .empty, 0, 0⟩

variable (ledger : LifecycleLedger N)

def write (w : LedgerWrite N) : LifecycleLedger N :=
  { ledger with file := w.apply ledger.file, writes := ledger.writes ++ [w] }

def sealTornTail : LifecycleLedger N :=
  { ledger.write .sealTail with byteCount := ledger.byteCount + 1 }

/-- The first accepted row of every identity that still has the hash of its latest row. -/
def anchors (replacement : Option (LifecycleLedgerEntry N)) :
    InsertionMap JsString (LifecycleLedgerEntry N) :=
  ledger.entries.foldl (fun anchors entry =>
    let latest :=
      if replacement.map (·.identity) = some entry.identity then replacement
      else ledger.byIdentity.get entry.identity
    if entry.state = .accepted ∧ (anchors.get entry.identity).isNone ∧
        some entry.requestHash = latest.map (·.requestHash) then
      anchors.set entry.identity entry
    else anchors) .empty

/-- The latest rows with the one that is to be appended. -/
def compacted (replacement : Option (LifecycleLedgerEntry N)) :
    InsertionMap JsString (LifecycleLedgerEntry N) :=
  match replacement with
  | none => ledger.byIdentity
  | some replacement => ledger.byIdentity.set replacement.identity replacement

/-- The anchor of every identity and, if it is another row, the latest. -/
def snapshotOf (anchors : InsertionMap JsString (LifecycleLedgerEntry N)) :
    List (JsString × LifecycleLedgerEntry N) → Option (List (LifecycleLedgerEntry N))
  | [] => some []
  | (identity, latest) :: rest => do
    let anchor ← anchors.get identity
    let snapshot ← snapshotOf anchors rest
    pure ((if latest.state = .accepted then [anchor] else [anchor, latest]) ++ snapshot)

/-- Rewrites the file to what later readers need.  The rows go to another file, which is
then renamed, so a crash leaves the old file or the new one. -/
def compact (replacement : Option (LifecycleLedgerEntry N)) :
    Except (LedgerError N) (LifecycleLedger N) :=
  let compacted := ledger.compacted replacement
  match snapshotOf (ledger.anchors replacement) compacted.entries with
  | none => .error .noAnchor
  | some snapshot =>
    let contents := snapshot.flatMap rowLine
    if ledger.limits.maxRows < snapshot.length ∨ ledger.limits.maxBytes < contents.length ∨
        ∃ entry ∈ snapshot, ledger.limits.maxLineBytes < (jsonBytes entry.toValue).length then
      .error .compactionTooLong
    else
      .ok { ledger.write (.snapshot snapshot) with
        entries := snapshot, byIdentity := compacted
        rowCount := snapshot.length, byteCount := contents.length }

/-- What an operation did and what it returned or threw. -/
abbrev Outcome (N α : Type) := LifecycleLedger N × Except (LedgerError N) α

/-- Whether a row is too much for the file as it is. -/
def exceeds (line : List UInt8) : Prop :=
  ledger.limits.maxRows < ledger.rowCount + 1 ∨
    ledger.limits.maxBytes < ledger.byteCount + line.length

instance (ledger : LifecycleLedger N) (line : List UInt8) : Decidable (ledger.exceeds line) :=
  inferInstanceAs (Decidable (_ ∨ _))

/-- Writes a row at the end of the file. -/
def push (entry : LifecycleLedgerEntry N) : LifecycleLedger N :=
  { ledger.write (.row entry) with
    entries := ledger.entries ++ [entry]
    byIdentity := ledger.byIdentity.set entry.identity entry
    rowCount := ledger.rowCount + 1
    byteCount := ledger.byteCount + (rowLine entry).length }

/-- The rest of `append`, after the file may have been rewritten. -/
def appendRow (entry : LifecycleLedgerEntry N) : Outcome N (LifecycleLedgerEntry N) :=
  if ledger.exceeds (rowLine entry) then (ledger, .error .appendTooLong)
  else (ledger.push entry, .ok entry)

def append (entry : LifecycleLedgerEntry N) : Outcome N (LifecycleLedgerEntry N) :=
  if ledger.limits.maxLineBytes < (rowLine entry).length - 1 then (ledger, .error .rowTooLong)
  else if ledger.exceeds (rowLine entry) then
    -- a row that takes the place of another is written by the compaction itself
    if (ledger.byIdentity.get entry.identity).isSome then
      match ledger.compact (some entry) with
      | .error e => (ledger, .error e)
      | .ok ledger => (ledger, .ok entry)
    else
      match ledger.compact none with
      | .error e => (ledger, .error e)
      | .ok ledger => ledger.appendRow entry
  else ledger.appendRow entry

/-! ## Opening -/

/-- What replaying the lines has found. -/
structure Scan (N : Type) where
  entries : List (LifecycleLedgerEntry N)
  byIdentity : InsertionMap JsString (LifecycleLedgerEntry N)
  rowCount : Nat
  invalidIdentities : List JsString
  syntheticUncertain : InsertionMap JsString (LifecycleLedgerEntry N)
  uncertainAfterCorruption : List JsString
  /-- the lines that went to the file of corrupt lines -/
  quarantined : List (List UInt8)

namespace Scan

def start : Scan N := ⟨[], .empty, 0, [], .empty, [], []⟩

/-- A line that is no entry: nothing is known any more of what was not finished. -/
def corrupt (scan : Scan N) (line : List UInt8) : Scan N :=
  { scan with
    uncertainAfterCorruption :=
      (scan.byIdentity.entries.filter (fun e => !e.2.state.final)).foldl
        (fun identities e => addFirst identities e.1) scan.uncertainAfterCorruption
    quarantined := scan.quarantined ++ [line] }

/-- A line that is an entry, which its history may still contradict. -/
def entry (clock : JsString → Timestamp N) (scan : Scan N) (line : List UInt8)
    (entry : LifecycleLedgerEntry N) : Scan N :=
  let prior := scan.byIdentity.get entry.identity
  if entry.identity ∈ scan.invalidIdentities ∨
      entry.identity ∈ scan.uncertainAfterCorruption ∨
      hasValidTerminalDigests entry = false ∨
      isValidHistoryContinuation prior entry = false then
    { scan with
      quarantined := scan.quarantined ++ [line]
      invalidIdentities := addFirst scan.invalidIdentities entry.identity
      syntheticUncertain :=
        if (scan.syntheticUncertain.get entry.identity).isSome then scan.syntheticUncertain
        else scan.syntheticUncertain.set entry.identity
          (uncertainFrom (prior.getD entry) prior.isSome (clock entry.identity)) }
  else
    { scan with
      entries := scan.entries ++ [entry]
      byIdentity := scan.byIdentity.set entry.identity entry }

def row [DecidableEq N] (limits : LifecycleLedgerLimits) (clock : JsString → Timestamp N)
    (scan : Scan N) (line : List UInt8) : Except (LedgerError N) (Scan N) :=
  if limits.maxRows < scan.rowCount + 1 then .error .tooManyRows
  else if limits.maxLineBytes < line.length then .error .rowTooLong
  else
    let scan := { scan with rowCount := scan.rowCount + 1 }
    match readRow line with
    | .unsupported version => .error (.unsupportedStateVersion version)
    | .corrupt => .ok (scan.corrupt line)
    | .entry entry => .ok (scan.entry clock line entry)

end Scan

def scanFile [DecidableEq N] (limits : LifecycleLedgerLimits) (clock : JsString → Timestamp N)
    (file : List UInt8) : Except (LedgerError N) (Scan N) :=
  (rows file).foldlM (Scan.row limits clock) Scan.start

/-- A loop over `items` that stops at the first error. -/
def forEach {α β : Type} (body : LifecycleLedger N → α → Outcome N β) :
    LifecycleLedger N → List α → Outcome N Unit
  | ledger, [] => (ledger, .ok ())
  | ledger, item :: items =>
    match body ledger item with
    | (ledger, .error e) => (ledger, .error e)
    | (ledger, .ok _) => forEach body ledger items

/-- An identity with an invalid row becomes uncertain; if it was ever accepted, on disk
as well. -/
def recoverInvalid 
    (item : JsString × LifecycleLedgerEntry N) : Outcome N Unit :=
  let ledger := { ledger with byIdentity := ledger.byIdentity.set item.1 item.2 }
  if ledger.entries.any (fun entry => entry.identity == item.1 && entry.state == .accepted) then
    (ledger.append item.2).map id (fun result => result.map fun _ => ())
  else (ledger, .ok ())

/-- An identity that was not finished when a line was lost becomes uncertain. -/
def recoverCorrupted (clock : JsString → Timestamp N) (ledger : LifecycleLedger N)
    (identity : JsString) : Outcome N Unit :=
  match ledger.byIdentity.get identity with
  | some entry =>
    if entry.state.final then (ledger, .ok ())
    else (ledger.append (uncertainFrom entry true (clock identity))).map id
      (fun result => result.map fun _ => ())
  | none => (ledger, .ok ())

/-- An identity whose effect had started becomes uncertain, unless all that is left of it
is a cleanup. -/
def recoverStarted (clock : JsString → Timestamp N) (ledger : LifecycleLedger N)
    (entry : LifecycleLedgerEntry N) : Outcome N Unit :=
  if (entry.state = .effectStarted ∧ isCleanupPending entry = false) ∨
      entry.state = .awaitingReady then
    (ledger.append (uncertainFrom entry true (clock entry.identity))).map id
      (fun result => result.map fun _ => ())
  else (ledger, .ok ())

/-- The three loops of `open` that close what was left open. -/
def recover (clock : JsString → Timestamp N) (scan : Scan N) (ledger : LifecycleLedger N) :
    Outcome N Unit :=
  match forEach recoverInvalid ledger scan.syntheticUncertain.entries with
  | (ledger, .error e) => (ledger, .error e)
  | (ledger, .ok _) =>
    match forEach (recoverCorrupted clock) ledger scan.uncertainAfterCorruption with
    | (ledger, .error e) => (ledger, .error e)
    | (ledger, .ok _) => forEach (recoverStarted clock) ledger ledger.byIdentity.values

/-- Whether the file ends in the middle of a line. -/
def isTorn (file : List UInt8) : Bool := !file.isEmpty && file.getLast? != some 0x0a

/-- The ledger with what the scan has found, its file sealed. -/
def ofScan (limits : LifecycleLedgerLimits) (file : List UInt8) (scan : Scan N) :
    LifecycleLedger N :=
  let ledger : LifecycleLedger N :=
    ⟨limits, file, [], scan.entries, scan.byIdentity, scan.rowCount, file.length⟩
  if isTorn file then ledger.sealTornTail else ledger

/-- `open()`.  `clock` is the time at which an entry of an identity is made. -/
def openLedger [DecidableEq N] (limits : LifecycleLedgerLimits) (clock : JsString → Timestamp N)
    (file : List UInt8) : Outcome N Unit :=
  if limits.maxBytes < file.length then (unopened limits file, .error .fileTooLong)
  else
    match scanFile limits clock file with
    | .error e => (unopened limits file, .error e)
    | .ok scan => recover clock scan (ofScan limits file scan)

inductive BeginResult (N : Type) where
  | new (entry : LifecycleLedgerEntry N)
  | replay (entry : LifecycleLedgerEntry N)
  | idempotencyConflict
  | terminalUncertain (entry : LifecycleLedgerEntry N)
  | inProgress (entry : LifecycleLedgerEntry N)

def begin (identity requestHash : JsString) (now : Timestamp N) : Outcome N (BeginResult N) :=
  match ledger.byIdentity.get identity with
  | none =>
    (ledger.append (.fresh identity requestHash .accepted now)).map id
      (fun result => result.map .new)
  | some prior =>
    if prior.requestHash ≠ requestHash then (ledger, .ok .idempotencyConflict)
    else if prior.state.terminal ∨ (prior.state = .effectStarted ∧ isCleanupPending prior) then
      (ledger, .ok (.replay prior))
    else if prior.state = .terminalUncertain then (ledger, .ok (.terminalUncertain prior))
    else if prior.state = .accepted then (ledger, .ok (.new prior))
    else (ledger, .ok (.inProgress prior))

/-- The response of a final row gets the digest of its text, unless it has one. -/
def withResponseDigest (next : LifecycleLedgerEntry N) : LifecycleLedgerEntry N :=
  if next.state.final && !(next.get (js "response")).isUndefined &&
      (next.get (js "responseDigest")).isUndefined then
    next.set (js "responseDigest") (.string (canonicalDigest (next.get (js "response"))))
      (wellKeyed_string _) (by decide)
  else next

/-- So do the durable effects of any row. -/
def withEffectsDigest (next : LifecycleLedgerEntry N) : LifecycleLedgerEntry N :=
  let effects := next.get (js "durableEffects")
  if !isFalsy effects && (getField (ownFields effects) (js "digest")).isUndefined then
    next.set (js "durableEffects")
      (.object (setField (effectsBody effects) (js "digest")
        (.string (canonicalDigest (.object (effectsBody effects))))))
      (wellKeyed_setField (wellKeyed_effectsBody (next.wellKeyed_get _)) _ (wellKeyed_string _))
      (by decide)
  else next

/-- The row `transition` writes after `previous`. -/
def nextEntry (previous : LifecycleLedgerEntry N) (state : LifecycleState)
    (fields : TransitionFields N) (now : Timestamp N) : LifecycleLedgerEntry N :=
  withEffectsDigest (withResponseDigest (previous.update fields state now))

def transition (identity : JsString) (state : LifecycleState)
    (fields : TransitionFields N) (now : Timestamp N) : Outcome N (LifecycleLedgerEntry N) :=
  match ledger.byIdentity.get identity with
  | none => (ledger, .error .unknownIdentity)
  | some previous => ledger.append (nextEntry previous state fields now)

/-- What `readTerminal` looks for in a tail without a line feed. -/
def identityMarker (identity : JsString) : List UInt8 :=
  utf8 (js "\"identity\":" ++ jsonStringify identity)

/-- The lines that end with a line feed. -/
def completeLines (file : List UInt8) : List (List UInt8) := (file.splitOn 0x0a).dropLast

/-- What follows the last line feed. -/
def tailOf (file : List UInt8) : List UInt8 := (file.splitOn 0x0a).getLastD []

/-- One complete line: the rows so far with the latest of the identity, or nothing if there
is no proof in this file. -/
def readTerminalRow [DecidableEq N] (limits : LifecycleLedgerLimits)
    (identity requestHash : JsString) (found : Nat × Option (LifecycleLedgerEntry N))
    (line : List UInt8) : Option (Nat × Option (LifecycleLedgerEntry N)) :=
  let rows := found.1 + 1
  if limits.maxRows < rows ∨ limits.maxLineBytes < line.length then none
  else
    match readRow line with
    | .corrupt | .unsupported _ => none
    | .entry entry =>
      if entry.identity ≠ identity then some (rows, found.2)
      else if entry.requestHash ≠ requestHash ∨ hasValidTerminalDigests entry = false ∨
          isValidHistoryContinuation found.2 entry = false then none
      else some (rows, some entry)

def readTerminal [DecidableEq N] (limits : LifecycleLedgerLimits) (file : List UInt8)
    (identity requestHash : JsString) : Option (LifecycleLedgerEntry N) :=
  if limits.maxBytes < file.length then none
  else
    match ((completeLines file).filter (fun l => l ≠ [])).foldlM
        (readTerminalRow limits identity requestHash) (0, none) with
    | none => none
    | some (_, latest) =>
      if identityMarker identity <:+: tailOf file then none
      else latest.filter (fun entry => entry.state.terminal)

end LifecycleLedger
end GajaeCode
