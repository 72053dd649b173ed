import GajaeCode.CanonicalJson
import GajaeCode.TeamEvidence
import GajaeCode.Utf8Lines

/-! # Scanning and repairing the session index

`#scan`, `replay`, `repair`, `#tail` and `append` of
`packages/coding-agent/src/sdk/broker/session-index.ts`, on the bytes of the two files: a
snapshot of events, and a log of the events after it, one on a line.  A scan takes what it
can verify and says whether there was anything else.  A repair writes what was verified back,
the snapshot first, and then the log.

SHA-256, what `<=` makes of operands that are no numbers, and `compactEvents` are parameters.
The copies of damaged files and the warnings are left out.
-/
namespace GajaeCode
open JsString JsValue JsonParse

/-- Numbers that events are numbered by. -/
class JsSequence (N : Type) [JsNumber N] [JsReal N] where
  zero : N
  two : N
  /-- `n + 1` -/
  increment : N → N
  /-- `m <= n` -/
  le : N → N → Bool
  /-- `m === n` -/
  same : N → N → Bool
  /-- `n > 2` -/
  exceedsTwo : N → Bool
  /-- `value <= n`, for a value that is no number; none where the conversion throws. -/
  convertedLe : JsValue N → N → Option Bool
  isSafeInteger_zero : JsNumber.isSafeInteger zero = true
  value_zero : JsReal.value zero = 0
  isFinite_two : JsNumber.isFinite two = true
  value_two : JsReal.value two = 2
  isFinite_increment : ∀ n, JsNumber.isFinite n = true → JsNumber.isFinite (increment n) = true
  value_increment : ∀ n, JsNumber.isSafeInteger n = true →
    JsReal.value (increment n) = JsReal.value n + 1
  increment_congr : ∀ m n, JsNumber.isFinite m = true → JsNumber.isFinite n = true →
    JsReal.value m = JsReal.value n → JsReal.value (increment m) = JsReal.value (increment n)
  le_iff : ∀ m n, JsNumber.isFinite m = true → JsNumber.isFinite n = true →
    (le m n = true ↔ JsReal.value m ≤ JsReal.value n)
  le_congr : ∀ k m n, JsNumber.isFinite m = true → JsNumber.isFinite n = true →
    JsReal.value m = JsReal.value n → le k m = le k n
  same_iff : ∀ m n, JsNumber.isFinite n = true →
    (same m n = true ↔ JsNumber.isFinite m = true ∧ JsReal.value m = JsReal.value n)
  exceedsTwo_iff : ∀ n, JsNumber.isFinite n = true → (exceedsTwo n = true ↔ 2 < JsReal.value n)
  convertedLe_congr : ∀ v m n, JsNumber.isFinite m = true → JsNumber.isFinite n = true →
    JsReal.value m = JsReal.value n → convertedLe v m = convertedLe v n

namespace SessionScan
open JsSequence

/-- The bytes of `index.snapshot.json` and `index.jsonl`, as far as they exist. -/
structure SessionFiles where
  snapshot : Option (List UInt8)
  log : Option (List UInt8)
  deriving DecidableEq

/-- Where the files are, the hash, and what the snapshot of a rotation keeps. -/
structure SessionHost (N : Type) where
  snapshotFile : JsString
  logFile : JsString
  /-- `createHash("sha256").update(text).digest("hex")` -/
  sha256 : JsString → JsString
  /-- The message of a `TypeError`. -/
  typeError : JsString
  compactEvents : List (JsValue N) → List (JsValue N)

variable {N : Type} [JsNumber N] [JsReal N] [JsSequence N]

structure UnsupportedStateVersionError (N : Type) where
  file : JsString
  version : N
  maximumSupportedVersion : N

def UnsupportedStateVersionError.message (error : UnsupportedStateVersionError N) : JsString :=
  js "Unsupported SDK state version " ++ JsNumber.text error.version ++ js " in " ++ error.file ++
    js "; maximum supported version is " ++ JsNumber.text error.maximumSupportedVersion ++ js "."

def property (value : JsValue N) (key : JsString) : JsValue N :=
  match value with
  | .object fields => getField fields key
  | _ => .undefined

/-- The loop of `assertSupportedStateVersion` and `assertSupportedSnapshotVersion`: a version
that is too high. -/
def unsupportedVersion (exceeds : N → Bool) (value : JsValue N) : Option N :=
  [property value (js "version"), property value (js "stateVersion")].findSome? fun version =>
    match version with
    | .number n => if JsNumber.isFinite n && exceeds n then some n else none
    | _ => none

def sessionIndexChecksum (host : SessionHost N) (unsigned : JsFields N) : JsString :=
  host.sha256 (jsonText (.object unsigned))

/-- `checksum === sessionIndexChecksum(unsigned)`, of what is left of the event. -/
def checksumMatches (host : SessionHost N) (event : JsValue N) : Bool :=
  match event with
  | .object fields =>
    TeamTasks.equalsText (sessionIndexChecksum host (eraseField fields (js "checksum")))
      (getField fields (js "checksum"))
  | _ => false

/-- The loop of `isValidSnapshot`: the number of the last event, if all are acceptable. -/
def lastAccepted (host : SessionHost N) (previous : N) : List (JsValue N) → Option N
  | [] => some previous
  | event :: events =>
    match property event (js "indexSeq") with
    | .number seq =>
      if !JsNumber.isSafeInteger seq || le seq previous || !checksumMatches host event then none
      else lastAccepted host seq events
    | _ => none

/-- `isValidSnapshot`, and what a valid one holds. -/
def validSnapshot (host : SessionHost N) (snapshot : JsValue N) : Option (N × List (JsValue N)) :=
  match property snapshot (js "indexSeq"), property snapshot (js "events") with
  | .number indexSeq, .array events =>
    if !JsNumber.isSafeInteger indexSeq || JsReal.lt indexSeq zero then none
    else if (lastAccepted host zero events).any fun previous => same previous indexSeq then
      some (indexSeq, events)
    else none
  | _, _ => none

structure SnapshotScan (N : Type) where
  snapshotEvents : List (JsValue N)
  snapshotSeq : N
  trustedSnapshotSeq : N
  invalidSnapshot : Bool
  unsupportedError : Option (UnsupportedStateVersionError N)

/-- `snapshot.indexSeq`, if it is a number of an event, or zero. -/
def claimedSeq (snapshot : JsValue N) : N :=
  match property snapshot (js "indexSeq") with
  | .number n => if JsNumber.isSafeInteger n && le zero n then n else zero
  | _ => zero

def scanSnapshotValue (host : SessionHost N) (snapshot : JsValue N) : SnapshotScan N :=
  match unsupportedVersion exceedsTwo snapshot with
  | some version => ⟨[], claimedSeq snapshot, zero, false, some ⟨host.snapshotFile, version, two⟩⟩
  | none =>
    let events : List (JsValue N) :=
      match property snapshot (js "events") with
      | .array events => events
      | _ => []
    match events.findSome? (unsupportedVersion JsNumber.exceedsOne) with
    | some version =>
      ⟨events.takeWhile fun event => (unsupportedVersion JsNumber.exceedsOne event).isNone,
        claimedSeq snapshot, zero, false, some ⟨host.snapshotFile, version, JsNumber.one⟩⟩
    | none =>
      match validSnapshot host snapshot with
      | some (indexSeq, events) => ⟨events, claimedSeq snapshot, indexSeq, false, none⟩
      | none => ⟨[], claimedSeq snapshot, zero, true, none⟩

def scanSnapshot (host : SessionHost N) (contents : Option (List UInt8)) : SnapshotScan N :=
  match contents with
  | none => ⟨[], zero, zero, false, none⟩
  | some bytes =>
    match parse (ofBytes bytes) with
    -- no JSON, or no property can be read
    | none | some .null => ⟨[], zero, zero, true, none⟩
    | some snapshot => scanSnapshotValue host snapshot

/-! ## The log -/

/-- The variables of the loop over the lines. -/
structure LogScan (N : Type) where
  corrupt : Bool
  logCorrupt : Bool
  tailStarted : Bool
  historicalLast : Option N
  expected : N
  validLogEvents : List (JsValue N)

variable (st : LogScan N)

def LogScan.spoiled : LogScan N := { st with corrupt := true, logCorrupt := true }

/-- `historicalLast !== undefined && historicalLast !== trustedSnapshotSeq` -/
def LogScan.stopsShort (trusted : N) : Bool :=
  st.historicalLast.any fun last => !same last trusted

/-- An event that the snapshot has taken in. -/
def LogScan.historical (indexSeq : JsValue N) : LogScan N :=
  match indexSeq with
  | .number n =>
    if !JsNumber.isSafeInteger n || le n zero ||
      st.historicalLast.any (fun last => !same n (increment last)) then st.spoiled
    else { st with historicalLast := some n }
  | _ => st.spoiled

def LogScan.tail (trusted : N) (event indexSeq : JsValue N) : LogScan N :=
  let st := { st with tailStarted := true }
  let st := if st.stopsShort trusted then st.spoiled else st
  match indexSeq with
  | .number n =>
    if !same n st.expected then st.spoiled
    else if !st.logCorrupt then
      { st with
        validLogEvents := st.validLogEvents ++ [event]
        expected := increment st.expected }
    else st
  | _ => st.spoiled

/-- `value <= n` -/
def looseLe (value : JsValue N) (n : N) : Option Bool :=
  match value with
  | .number m => some (le m n)
  | _ => convertedLe value n

/-- An event whose version and checksum are right. -/
def LogScan.event (invalidSnapshot : Bool) (trusted : N) (event : JsValue N) : LogScan N :=
  let indexSeq := property event (js "indexSeq")
  if !st.tailStarted && !invalidSnapshot then
    match looseLe indexSeq trusted with
    | none => st.spoiled
    | some true => st.historical indexSeq
    | some false => st.tail trusted event indexSeq
  else st.tail trusted event indexSeq

def LogScan.line (host : SessionHost N) (invalidSnapshot : Bool) (trusted : N)
    (line : JsString) : Except (UnsupportedStateVersionError N) (LogScan N) :=
  if line = [] then .ok st
  else match parse line with
    | none => .ok st.spoiled
    | some event =>
      match unsupportedVersion JsNumber.exceedsOne event with
      | some version => .error ⟨host.logFile, version, JsNumber.one⟩
      | none =>
        if checksumMatches host event then .ok (st.event invalidSnapshot trusted event)
        else .ok st.spoiled

/-- The lines of the log, as far as their version is supported. -/
def LogScan.lines (host : SessionHost N) (invalidSnapshot : Bool) (trusted : N) (st : LogScan N) :
    List JsString → LogScan N × Option (UnsupportedStateVersionError N)
  | [] => (st, none)
  | line :: lines =>
    match st.line host invalidSnapshot trusted line with
    | .error error => (st, some error)
    | .ok st => LogScan.lines host invalidSnapshot trusted st lines

/-- After the last line: the history must reach the snapshot, and the last line must end. -/
def LogScan.finish (trusted : N) (terminal : JsString) : LogScan N :=
  let st := if st.stopsShort trusted && !st.tailStarted then st.spoiled else st
  if terminal = [] then st else st.spoiled

def scanLog (host : SessionHost N) (invalidSnapshot : Bool) (trusted : N)
    (contents : Option (List UInt8)) : LogScan N × Option (UnsupportedStateVersionError N) :=
  let st : LogScan N := ⟨invalidSnapshot, false, false, none, increment trusted, []⟩
  match contents with
  | none => (st, none)
  | some bytes =>
    let lines := (ofBytes bytes).lines
    match LogScan.lines host invalidSnapshot trusted st lines.dropLast with
    | (st, some error) => (st, some error)
    | (st, none) => (st.finish trusted (lines.getLast?.getD []), none)

inductive ScanStatus where
  | healthy | corrupt | unsupported
  deriving DecidableEq

structure SessionIndexDiagnosis (N : Type) where
  status : ScanStatus
  validPrefixSeq : JsValue N
  snapshotSeq : N
  reason : Option JsString

structure SessionIndexScan (N : Type) where
  diagnosis : SessionIndexDiagnosis N
  snapshotEvents : List (JsValue N)
  validLogEvents : List (JsValue N)
  unsupportedError : Option (UnsupportedStateVersionError N)

/-- `events.at(-1)?.indexSeq ?? seq` -/
def lastIndexSeq (events : List (JsValue N)) (seq : JsValue N) : JsValue N :=
  match events.getLast?.map fun event => property event (js "indexSeq") with
  | none | some .undefined | some .null => seq
  | some last => last

def scan (host : SessionHost N) (files : SessionFiles) : SessionIndexScan N :=
  let s := scanSnapshot host files.snapshot
  let (st, logError) := scanLog host s.invalidSnapshot s.trustedSnapshotSeq files.log
  let verifiedSnapshotPrefix := lastIndexSeq s.snapshotEvents (.number s.trustedSnapshotSeq)
  let validPrefixSeq := lastIndexSeq st.validLogEvents verifiedSnapshotPrefix
  -- an error in the log returns before the one of the snapshot is looked at
  match logError.or s.unsupportedError with
  | some error =>
    ⟨⟨.unsupported, validPrefixSeq, s.snapshotSeq, some error.message⟩, s.snapshotEvents,
      st.validLogEvents, some error⟩
  | none =>
    let reason := if s.invalidSnapshot then some (js "invalid snapshot")
      else if st.corrupt then some (js "invalid log sequence") else none
    ⟨⟨if st.corrupt then .corrupt else .healthy, validPrefixSeq, s.snapshotSeq, reason⟩,
      s.snapshotEvents, st.validLogEvents, none⟩

/-- The events that a replay takes. -/
def SessionIndexScan.events (scan : SessionIndexScan N) : List (JsValue N) :=
  scan.snapshotEvents ++ scan.validLogEvents

inductive SessionFile where
  | snapshot | log
  deriving DecidableEq

/-- `replaceAtomically(file, contents)` -/
def SessionFiles.replace (files : SessionFiles) (write : SessionFile × List UInt8) :
    SessionFiles :=
  match write.1 with
  | .snapshot => { files with snapshot := some write.2 }
  | .log => { files with log := some write.2 }

def repairedSnapshot (scan : SessionIndexScan N) : JsValue N :=
  .object [(js "version", .number two),
    (js "indexSeq", lastIndexSeq scan.snapshotEvents (.number zero)),
    (js "events", .array scan.snapshotEvents)]

def repairedLog (scan : SessionIndexScan N) : JsString :=
  let log := unlines (scan.validLogEvents.map jsonText)
  if log = [] then [] else log ++ [LF]

def repairWrites (scan : SessionIndexScan N) : List (SessionFile × List UInt8) :=
  if scan.diagnosis.status = .corrupt then
    [(.snapshot, utf8 (jsonText (repairedSnapshot scan))), (.log, utf8 (repairedLog scan))]
  else []

/-- The files when `repair` stops after so many of its writes. -/
def repairUpTo (host : SessionHost N) (files : SessionFiles) (writes : Nat) : SessionFiles :=
  ((repairWrites (scan host files)).take writes).foldl SessionFiles.replace files

/-- The files after `repair`. -/
def repair (host : SessionHost N) (files : SessionFiles) : SessionFiles :=
  (repairWrites (scan host files)).foldl SessionFiles.replace files

/-! ## Appending -/

/-- `SessionIndex` -/
structure OpenIndex (N : Type) where
  events : List (JsValue N)
  logOffset : Nat
  corruptSuffix : Bool

/-- `replay`, or the message it throws. -/
def replay (host : SessionHost N) (files : SessionFiles) : Except JsString (OpenIndex N) :=
  let scan : SessionIndexScan N := scan host files
  match scan.unsupportedError with
  | some error => .error error.message
  | none => .ok ⟨scan.events, (files.log.map List.length).getD 0,
      scan.diagnosis.status = .corrupt⟩

/-- `get indexSeq`; the events of a replay have numbers. -/
def OpenIndex.indexSeq (index : OpenIndex N) : N :=
  match lastIndexSeq index.events (.number zero) with
  | .number n => n
  | _ => zero

/-- One line of `#tail`, with what it has found to be corrupt. -/
def OpenIndex.tailLine (index : OpenIndex N) (host : SessionHost N) (snapshotSeq : N)
    (corrupt : Bool) (line : JsString) : Except JsString (OpenIndex N × Bool) :=
  if line = [] then .ok (index, corrupt)
  else match parse line with
    | none => .ok (index, true)
    | some event =>
      match unsupportedVersion JsNumber.exceedsOne event with
      | some version => .error
        (⟨host.logFile, version, JsNumber.one⟩ : UnsupportedStateVersionError N).message
      | none =>
        if corrupt then .ok (index, corrupt)
        else match event with
          | .null => .error host.typeError
          | event => match looseLe (property event (js "indexSeq")) snapshotSeq with
            | none => .error host.typeError
            | some true => .ok (index, corrupt)
            | some false =>
              match property event (js "indexSeq") with
              | .number n =>
                if !checksumMatches host event || !same n (increment index.indexSeq) then
                  .ok (index, true)
                else .ok ({ index with events := index.events ++ [event] }, corrupt)
              | _ => .ok (index, true)

def OpenIndex.tailLines (host : SessionHost N) (snapshotSeq : N) (index : OpenIndex N)
    (corrupt : Bool) : List JsString → Except JsString (OpenIndex N × Bool)
  | [] => .ok (index, corrupt)
  | line :: lines =>
    match index.tailLine host snapshotSeq corrupt line with
    | .error message => .error message
    | .ok (index, corrupt) => OpenIndex.tailLines host snapshotSeq index corrupt lines

/-- `#tail`: what has been added to the log. -/
def OpenIndex.tail (index : OpenIndex N) (host : SessionHost N) (files : SessionFiles) :
    Except JsString (OpenIndex N) :=
  match files.log with
  | none => .ok index
  | some bytes =>
    if bytes.length < index.logOffset then replay host files
    else
      let data := bytes.drop index.logOffset
      let unterminated := (data.splitOn 0x0a).getLast?.getD []
      let consumed := data.take (data.length - unterminated.length)
      let read := { index with logOffset := index.logOffset + consumed.length }
      match OpenIndex.tailLines host index.indexSeq read false (ofBytes consumed).lines with
      | .error message => .error message
      | .ok (index, corrupt) =>
        if corrupt || unterminated ≠ [] then replay host files else .ok index

/-- `Omit<SessionIndexEvent, "version" | "indexSeq" | "checksum" | "ts">`, perhaps with a time. -/
structure AppendInput (N : Type) where
  fields : JsFields N
  wellKeyed : WellKeyed (.object fields)
  noChecksum : js "checksum" ∉ fields.map Prod.fst
  noStateVersion : js "stateVersion" ∉ fields.map Prod.fst

/-- The event that is appended, without its checksum. -/
def AppendInput.unsigned (input : AppendInput N) (indexSeq now : N) : JsFields N :=
  let ts := match getField input.fields (js "ts") with
    | .undefined | .null => .number now
    | ts => ts
  setField (setField (setField input.fields (js "version") (.number JsNumber.one))
    (js "indexSeq") (.number (increment indexSeq))) (js "ts") ts

def AppendInput.event (input : AppendInput N) (host : SessionHost N) (indexSeq now : N) :
    JsValue N :=
  .object (setField (input.unsigned indexSeq now) (js "checksum")
    (.string (sessionIndexChecksum host (input.unsigned indexSeq now))))

def rotateBytes : Nat := 4 * 1024 * 1024

/-- The snapshot that a rotation writes, unless the one there is ahead of the events. -/
def rotatedSnapshot (host : SessionHost N) (index : OpenIndex N) (current : Option (List UInt8)) :
    Option (List UInt8) :=
  let valid := (current.bind fun bytes => parse (ofBytes bytes)).bind (validSnapshot host)
  if valid.any fun snapshot => JsReal.lt index.indexSeq snapshot.1 then current
  else some (utf8 (jsonText (.object [(js "version", .number two),
    (js "indexSeq", .number index.indexSeq),
    (js "events", .array (host.compactEvents index.events))])))

def rotate (host : SessionHost N) (files : SessionFiles) :
    Except JsString (SessionFiles × OpenIndex N) :=
  match replay host files with
  | .error message => .error message
  | .ok index =>
    .ok (⟨rotatedSnapshot host index files.snapshot, some []⟩, { index with logOffset := 0 })

/-- `appendSync` -/
def SessionFiles.appendLine (files : SessionFiles) (line : JsString) : SessionFiles :=
  { files with log := some (files.log.getD [] ++ utf8 (line ++ [LF])) }

/-- `append`: the event, the files and the index, or the message it throws. -/
def append (host : SessionHost N) (files : SessionFiles) (input : AppendInput N) (now : N) :
    Except JsString (JsValue N × SessionFiles × OpenIndex N) :=
  match replay host files with
  | .error message => .error message
  | .ok index =>
    if index.corruptSuffix then
      .error (js "Cannot append to corrupt session index log; run " ++
        js "\x60gjc gc --repair-session-index\x60 to quarantine evidence and retain the " ++
        js "valid prefix")
    else
      let event := input.event host index.indexSeq now
      let files := files.appendLine (jsonText event)
      match index.tail host files with
      | .error message => .error message
      | .ok index =>
        if rotateBytes ≤ (files.log.getD []).length then
          match rotate host files with
          | .error message => .error message
          | .ok (files, index) => .ok (event, files, index)
        else .ok (event, files, index)

end SessionScan
end GajaeCode
