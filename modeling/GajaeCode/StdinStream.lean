import GajaeCode.StdinBuffer

/-! # The stdin buffer with its decoder and its timers

`packages/tui/src/stdin-buffer.ts`, the class as it is fed by a terminal: byte chunks go through
a persistent decoder, and a byte that stands alone may be the key of an old terminal with its
Meta bit set; a timer gives up what is incomplete; a mouse report that is given up is still
awaited, in a quarantine.

What is done with the decoded text, `StdinBuffer.process`, is that of strings.  The decoder of the
platform is a parameter.
-/
namespace GajaeCode
open JsString
open StdinBuffer (ESC StdinEvent emitDataSequence emitAll isSgrMousePrefix)

/-- `StringDecoder` of `node:string_decoder`. -/
structure StringDecoder (D : Type) where
  new : D
  write : D → List UInt8 → JsString × D

inductive StdinTimer where
  | leadByte
  | flush
  | quarantine
  deriving DecidableEq

structure StdinStream (D : Type) where
  /-- the text that is pending, the paste and the Kitty key -/
  input : StdinBuffer
  /-- the timers that run, with their handles -/
  timers : List (Nat × StdinTimer)
  nextTimer : Nat
  timeout : Option Nat
  decoder : D
  decoderHasPendingUtf8 : Bool
  pendingSingleUtf8LeadByte : Option UInt8
  sgrQuarantine : Bool
  sgrQuarantineBytes : Nat
  sgrQuarantineSemicolons : Nat
  sgrQuarantineHasDigit : Bool

namespace StdinStream
variable {D : Type}

def SGR_QUARANTINE_MAX_BYTES : Nat := 256

def start (dec : StringDecoder D) : StdinStream D :=
  ⟨StdinBuffer.initial, [], 0, none, dec.new, false, none, false, 0, 0, false⟩

def isUtf8LeadByte (byte : UInt8) : Bool := 0xc2 ≤ byte && byte ≤ 0xf4

def isContinuationByte (byte : UInt8) : Bool := 0x80 ≤ byte && byte ≤ 0xbf

def expectedLength (lead : UInt8) : Nat :=
  if 0xc2 ≤ lead && lead ≤ 0xdf then 2
  else if 0xe0 ≤ lead && lead ≤ 0xef then 3
  else if 0xf0 ≤ lead && lead ≤ 0xf4 then 4
  else 0

def endsWithIncompleteUtf8Sequence (data : List UInt8) : Bool :=
  let continuationCount := (data.rtakeWhile isContinuationByte).length
  match (data.rdropWhile isContinuationByte).getLast? with
  | none => continuationCount > 0
  | some lead => expectedLength lead > 0 && continuationCount + 1 < expectedLength lead

def legacyMetaSequence (byte : UInt8) : JsString := [ESC, (byte - 128).toUInt16]

def setTimer (kind : StdinTimer) (st : StdinStream D) : StdinStream D :=
  { st with
    timers := (st.nextTimer, kind) :: st.timers
    nextTimer := st.nextTimer + 1
    timeout := some st.nextTimer }

variable (st : StdinStream D)

def clearTimer : StdinStream D :=
  { st with timers := st.timers.filter (some ·.1 ≠ st.timeout), timeout := none }

def emit (sequence : JsString) : StdinStream D × List StdinEvent :=
  let emitted := emitDataSequence st.input.pendingKittyPrintableCodepoint sequence
  ({ st with input.pendingKittyPrintableCodepoint := emitted.1 }, emitted.2)

/-- The pending lead byte, if there is one, and the state without it. -/
def consumePendingSingleUtf8LeadAsMeta : Option UInt8 × StdinStream D :=
  match st.pendingSingleUtf8LeadByte with
  | none => (none, st)
  | some byte =>
    (some byte, { st with pendingSingleUtf8LeadByte := none, decoderHasPendingUtf8 := false })

/-- The pending lead byte becomes a Meta key. -/
def emitPendingLead : StdinStream D × List StdinEvent :=
  let consumed := st.consumePendingSingleUtf8LeadAsMeta
  match consumed.1 with
  | none => (consumed.2, [])
  | some byte => consumed.2.emit (legacyMetaSequence byte)

def endSgrQuarantine : StdinStream D :=
  { st.clearTimer with
    sgrQuarantine := false
    sgrQuarantineBytes := 0
    sgrQuarantineSemicolons := 0
    sgrQuarantineHasDigit := false }

/-- What follows the rest of a report that is too long. -/
def resume (data : JsString) : JsString :=
  match data.dropWhile fun u => isDigit u || u = 0x3b with
  | [] => []
  | u :: rest => if u = 0x4d ∨ u = 0x6d then rest else u :: rest

/-- What is left of the data when the quarantine has taken its part. -/
def consumeSgrQuarantine : StdinStream D → JsString → JsString × StdinStream D
  | st, [] => ([], st)
  | st, char :: rest =>
    if st.sgrQuarantineBytes ≥ SGR_QUARANTINE_MAX_BYTES then
      (resume (char :: rest), st.endSgrQuarantine)
    else if isDigit char then
      consumeSgrQuarantine { st with
        sgrQuarantineHasDigit := true
        sgrQuarantineBytes := st.sgrQuarantineBytes + 1 } rest
    else if char = 0x3b ∧ st.sgrQuarantineHasDigit ∧ st.sgrQuarantineSemicolons < 2 then
      consumeSgrQuarantine { st with
        sgrQuarantineSemicolons := st.sgrQuarantineSemicolons + 1
        sgrQuarantineHasDigit := false
        sgrQuarantineBytes := st.sgrQuarantineBytes + 1 } rest
    else if (char = 0x4d ∨ char = 0x6d) ∧ st.sgrQuarantineSemicolons = 2 ∧
        st.sgrQuarantineHasDigit then
      (rest, st.endSgrQuarantine)
    else (char :: rest, st.endSgrQuarantine)

/-! ## `process` -/

/-- What decoding a chunk gives. -/
inductive Decoding where
  /-- nothing: the byte is kept -/
  | held
  /-- a byte that stands alone and begins no character -/
  | legacy (byte : UInt8)
  | decoded (str : JsString)

def clearUnlessQuarantine : StdinStream D :=
  if st.timeout.isSome && !st.sgrQuarantine then st.clearTimer else st

/-- The bytes to decode: a pending lead byte goes in front, or is given up as a Meta key. -/
def joinPendingLead (data : List UInt8) : List UInt8 × StdinStream D × List StdinEvent :=
  match st.pendingSingleUtf8LeadByte with
  | none => (data, st, [])
  | some byte =>
    if data.head?.any isContinuationByte then
      (byte :: data, { st with pendingSingleUtf8LeadByte := none }, [])
    else
      let consumed := st.emitPendingLead
      (data, consumed.1, consumed.2)

/-- The decoding of a chunk of bytes. -/
def decode (dec : StringDecoder D) (st : StdinStream D) (data : List UInt8) :
    Decoding × StdinStream D × List StdinEvent :=
  let hadPendingUtf8 := st.decoderHasPendingUtf8 || st.pendingSingleUtf8LeadByte.isSome
  match st.joinPendingLead data with
  | (bytes, st, events) =>
    let write : Decoding × StdinStream D × List StdinEvent :=
      let out := dec.write st.decoder bytes
      let allContinuationBytes := bytes.all isContinuationByte
      (.decoded out.1,
        { st with
          decoder := out.2
          decoderHasPendingUtf8 := endsWithIncompleteUtf8Sequence bytes &&
            !(hadPendingUtf8 && out.1.length > 0 && allContinuationBytes) },
        events)
    match bytes with
    | [byte] =>
      if byte > 127 && !st.decoderHasPendingUtf8 then
        if isUtf8LeadByte byte then
          (.held, { st with
            pendingSingleUtf8LeadByte := some byte
            decoderHasPendingUtf8 := true }.setTimer .leadByte, events)
        else (.legacy byte, st, events)
      else write
    | _ => write

/-- The text that reaches the sequence splitter: what a quarantine leaves of it. -/
def intake (str : JsString) : JsString × StdinStream D :=
  if st.sgrQuarantine then st.consumeSgrQuarantine str else (str, st)

/-- The decoded text.  Where a paste ends, the call for what follows it finds neither a lead byte
nor a timer nor a quarantine. -/
def accept (str : JsString) (decodedFromBuffer : Bool) : StdinStream D × List StdinEvent :=
  if str = [] ∧ st.input.buffer = [] then if decodedFromBuffer then (st, []) else st.emit []
  else
    let taken := st.intake str
    if st.sgrQuarantine ∧ taken.1 = [] then (taken.2, [])
    else
      let out := taken.2.input.process taken.1
      let next := { taken.2 with input := out.1 }
      (if out.1.buffer = [] then next else next.setTimer .flush, out.2)

def processText (data : JsString) : StdinStream D × List StdinEvent :=
  let given := st.clearUnlessQuarantine.emitPendingLead
  let out := given.1.accept data false
  (out.1, given.2 ++ out.2)

/-- `process` of a `Buffer`. -/
def processBytes (dec : StringDecoder D) (st : StdinStream D) (data : List UInt8) :
    StdinStream D × List StdinEvent :=
  match st.clearUnlessQuarantine.decode dec data with
  | (.held, st, events) => (st, events)
  | (.legacy byte, st, events) =>
    let out := st.accept (legacyMetaSequence byte) false
    (out.1, events ++ out.2)
  | (.decoded str, st, events) =>
    let out := st.accept str true
    (out.1, events ++ out.2)

/-! ## `flush` and timers -/

/-- Neither a timer nor a quarantine goes on. -/
def stop : StdinStream D :=
  let st := if st.timeout.isSome then st.clearTimer else st
  if st.sgrQuarantine then st.endSgrQuarantine else st

/-- What `flush` returns. -/
def flush : StdinStream D × List JsString :=
  let consumed := st.stop.consumePendingSingleUtf8LeadAsMeta
  let pendingMeta := (consumed.1.map legacyMetaSequence).toList
  let st := consumed.2
  let flushed : StdinStream D :=
    { st with input.buffer := [], input.pendingKittyPrintableCodepoint := none }
  if st.input.buffer = [] then (st, pendingMeta)
  else if isSgrMousePrefix st.input.buffer then (flushed, pendingMeta)
  else (flushed, pendingMeta ++ [st.input.buffer])

/-- What is in a text that does not belong to a report, with the numbers of the report. -/
def scanReport : Nat → Bool → JsString → JsString × Nat × Bool
  | semicolons, hasDigit, [] => ([], semicolons, hasDigit)
  | semicolons, hasDigit, char :: rest =>
    if isDigit char then scanReport semicolons true rest
    else if char = 0x3b ∧ hasDigit ∧ semicolons < 2 then scanReport (semicolons + 1) false rest
    else (char :: rest, semicolons, hasDigit)

def beginSgrQuarantine : StdinStream D × List StdinEvent :=
  let suffix := st.input.buffer.drop 3
  let emptied : StdinStream D :=
    { st with input.buffer := [], input.pendingKittyPrintableCodepoint := none }
  match scanReport 0 false suffix with
  | ([], semicolons, hasDigit) =>
    ({ emptied with
      sgrQuarantine := true
      sgrQuarantineBytes := suffix.length
      sgrQuarantineSemicolons := semicolons
      sgrQuarantineHasDigit := hasDigit }.setTimer .quarantine, [])
  | (remainder, _, _) => emptied.processText remainder

def onTimer : StdinTimer → StdinStream D × List StdinEvent
  | .leadByte => st.emitPendingLead
  | .quarantine => (st.endSgrQuarantine, [])
  | .flush =>
    if isSgrMousePrefix st.input.buffer then st.beginSgrQuarantine
    else
      let flushed := st.flush
      let emitted := emitAll flushed.1.input.pendingKittyPrintableCodepoint flushed.2
      ({ flushed.1 with input.pendingKittyPrintableCodepoint := emitted.1 }, emitted.2)

/-- A timer that runs fires. -/
def fire (handle : Nat) : StdinStream D × List StdinEvent :=
  match st.timers.find? (·.1 = handle) with
  | none => (st, [])
  | some (_, kind) => { st with timers := st.timers.filter (·.1 ≠ handle) }.onTimer kind

end StdinStream
end GajaeCode
