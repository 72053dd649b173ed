import GajaeCode.JsString

/-! # Server-sent events

`packages/utils/src/stream.ts`: the bytes of a response arrive in chunks; a sink joins what
a line has in several chunks, and lines are gathered into events.  What `TextDecoder` makes
of the bytes of a line is a parameter.

The reference (`referenceEvents`) parses the whole stream at once; `readSseEvents_eq` says
that the events are its events, however the stream is cut.
-/
namespace GajaeCode
open JsString List Option

namespace SseStream
variable (decode : List UInt8 → JsString)

def newline : UInt8 := 0x0a

/-- `ConcatSink`: of the bytes of a buffer the first `length` count. -/
structure ConcatSink where
  space : Option (List UInt8)
  length : Nat
  fits : length ≤ (space.getD []).length

/-- `Buffer.allocUnsafe`: bytes of which nothing is known. -/
abbrev Allocator := (size : Nat) → { bytes : List UInt8 // bytes.length = size }

namespace ConcatSink
variable (sink : ConcatSink)

def empty : ConcatSink := ⟨none, 0, Nat.zero_le _⟩

/-- The bytes that count. -/
def content (sink : ConcatSink) : List UInt8 := (sink.space.getD []).take sink.length

theorem length_content : sink.content.length = sink.length := by
  rw [content, length_take, Nat.min_eq_left sink.fits]

def ensureCapacity (alloc : Allocator) (sink : ConcatSink) (size : Nat) : List UInt8 :=
  match sink.space with
  | some space =>
    if size ≤ space.length then space
    else sink.content ++ (alloc (max size (space.length * 2))).val.drop sink.length
  | none => (alloc size).val

theorem le_length_ensureCapacity (alloc : Allocator) (sink : ConcatSink) (size : Nat) :
    size ≤ (sink.ensureCapacity alloc size).length := by
  unfold ensureCapacity
  cases hspace : sink.space with
  | none => exact (alloc size).property.ge
  | some space =>
    dsimp only
    split_ifs with hsize
    · exact hsize
    · have hfits := sink.fits
      rw [hspace, getD_some] at hfits
      rw [length_append, sink.length_content, length_drop, (alloc _).property]
      omega

theorem take_ensureCapacity (alloc : Allocator) (sink : ConcatSink) (size : Nat) :
    (sink.ensureCapacity alloc size).take sink.length = sink.content := by
  unfold ensureCapacity
  cases hspace : sink.space with
  | none =>
    have hfits := sink.fits
    rw [hspace, getD_none, length_nil, Nat.le_zero] at hfits
    rw [content, hspace, hfits]
    rfl
  | some space =>
    dsimp only
    split_ifs with hsize
    · rw [content, hspace, getD_some]
    · rw [take_append_of_le_length sink.length_content.ge]
      exact take_of_length_le sink.length_content.le

/-- `append`: the chunk is set behind the bytes that count. -/
def append (alloc : Allocator) (sink : ConcatSink) (chunk : List UInt8) : ConcatSink :=
  if chunk = [] then sink
  else
    let space := sink.ensureCapacity alloc (sink.length + chunk.length)
    { space := some (space.take sink.length ++ chunk ++ space.drop (sink.length + chunk.length))
      length := sink.length + chunk.length
      fits := by
        have hspace : sink.length + chunk.length ≤ space.length :=
          sink.le_length_ensureCapacity alloc _
        simp only [getD_some, List.length_append, List.length_take, List.length_drop]
        omega }

def isEmpty (sink : ConcatSink) : Bool := sink.length == 0

def flush (sink : ConcatSink) : Option (List UInt8) :=
  if sink.length = 0 then none else some sink.content

def clear (sink : ConcatSink) : ConcatSink := ⟨sink.space, 0, Nat.zero_le _⟩

@[simp] theorem content_clear : sink.clear.content = [] := rfl

@[simp] theorem content_empty : empty.content = [] := rfl

@[simp] theorem content_append (alloc : Allocator) (sink : ConcatSink) (chunk : List UInt8) :
    (sink.append alloc chunk).content = sink.content ++ chunk := by
  by_cases hchunk : chunk = []
  · rw [append, if_pos hchunk, hchunk, append_nil]
  · rw [append, if_neg hchunk, content, getD_some, take_ensureCapacity]
    refine (take_append_of_le_length ?_).trans (take_of_length_le ?_)
    all_goals rw [length_append, sink.length_content]

theorem isEmpty_iff : sink.isEmpty = true ↔ sink.content = [] := by
  rw [isEmpty, beq_iff_eq, ← sink.length_content, length_eq_zero_iff]

theorem flush_eq : sink.flush = if sink.content = [] then none else some sink.content := by
  rw [flush, ← sink.length_content]
  simp only [length_eq_zero_iff]

/-- `appendAndFlushLines`, on a rest of the chunk no longer than the fuel: the lines that it
yields, and the sink after them. -/
def linesFrom (alloc : Allocator) : Nat → ConcatSink → List UInt8 → List (List UInt8) × ConcatSink
  | 0, sink, _ => ([], sink)
  | fuel + 1, sink, chunk =>
    if chunk = [] then ([], sink)
    else
      match chunk.dropWhile (· ≠ newline) with
      | [] => ([], sink.append alloc chunk)
      | _ :: rest =>
        let suffix := chunk.takeWhile (· ≠ newline)
        if sink.isEmpty then
          let out := linesFrom alloc fuel sink rest
          (suffix :: out.1, out.2)
        else
          let joined := sink.append alloc suffix
          match joined.flush with
          | none => linesFrom alloc fuel joined rest
          | some payload =>
            let out := linesFrom alloc fuel joined.clear rest
            (payload :: out.1, out.2)

def appendAndFlushLines (alloc : Allocator) (sink : ConcatSink) (chunk : List UInt8) :
    List (List UInt8) × ConcatSink := linesFrom alloc chunk.length sink chunk

end ConcatSink

structure ServerSentEvent where
  event : Option JsString
  data : JsString
  raw : List JsString
  deriving DecidableEq

structure SseEventState where
  event : Option JsString
  data : Option JsString
  raw : List JsString

def SseEventState.initial : SseEventState := ⟨none, none, []⟩

def flushSseEvent (state : SseEventState) : Option ServerSentEvent × SseEventState :=
  if state.event = none ∧ state.data = none then (none, { state with raw := [] })
  else (some ⟨state.event, state.data.getD [], state.raw⟩, ⟨none, none, []⟩)

/-- A line without its carriage return. -/
def trimCR (line : List UInt8) : List UInt8 :=
  if line.getLast? = some 0x0d then line.dropLast else line

def splitField (text : JsString) : JsString × JsString :=
  let value := (text.dropWhile (· ≠ 0x3a)).tail
  (text.takeWhile (· ≠ 0x3a), if value.head? = some 0x20 then value.tail else value)

def pushSseLine (decode : List UInt8 → JsString) (line : List UInt8) (state : SseEventState) :
    Option ServerSentEvent × SseEventState :=
  let line := trimCR line
  if line = [] then flushSseEvent state
  else
    let text := decode line
    let state := { state with raw := state.raw ++ [text] }
    if line.head? = some 0x3a then (none, state)
    else
      let field := splitField text
      if field.1 = js "event" then (none, { state with event := some field.2 })
      else if field.1 = js "data" then
        match state.data with
        | none => (none, { state with data := some field.2 })
        | some data => (none, { state with data := some (data ++ [LF] ++ field.2) })
      else (none, state)

/-- The loop over the lines of a chunk. -/
def pushLines (decode : List UInt8 → JsString) :
    List (List UInt8) → SseEventState → List ServerSentEvent × SseEventState
  | [], state => ([], state)
  | line :: lines, state =>
    let pushed := pushSseLine decode line state
    let out := pushLines decode lines pushed.2
    (pushed.1.toList ++ out.1, out.2)

def pushChunks (decode : List UInt8 → JsString) (alloc : Allocator) :
    List (List UInt8) → ConcatSink → SseEventState →
      List ServerSentEvent × ConcatSink × SseEventState
  | [], sink, state => ([], sink, state)
  | chunk :: chunks, sink, state =>
    let found := sink.appendAndFlushLines alloc chunk
    let pushed := pushLines decode found.1 state
    let out := pushChunks decode alloc chunks found.2 pushed.2
    (pushed.1 ++ out.1, out.2)

def readSseEvents (decode : List UInt8 → JsString) (alloc : Allocator)
    (chunks : List (List UInt8)) : List ServerSentEvent :=
  let out := pushChunks decode alloc chunks .empty .initial
  let tail := match out.2.1.flush with
    | none => (none, out.2.2)
    | some tail => pushSseLine decode tail out.2.2
  out.1 ++ tail.1.toList ++ (flushSseEvent tail.2).1.toList

/-- What the field of a line says, where it is not a comment. -/
def lineField (decode : List UInt8 → JsString) (line : List UInt8) : Option (JsString × JsString) :=
  if line.head? = some 0x3a then none else some (splitField (decode line))

def fieldValues (decode : List UInt8 → JsString) (name : JsString) (block : List (List UInt8)) :
    List JsString :=
  block.filterMap fun line =>
    (lineField decode line).bind fun field => if field.1 = name then some field.2 else none

/-- The event of the lines between two blank ones: the last event field wins, data fields are
joined, and without either there is no event. -/
def blockEvent (decode : List UInt8 → JsString) (block : List (List UInt8)) :
    Option ServerSentEvent :=
  let events := fieldValues decode (js "event") block
  let data := fieldValues decode (js "data") block
  if events = [] ∧ data = [] then none
  else some ⟨events.getLast?, unlines data, block.map decode⟩

def referenceEvents (decode : List UInt8 → JsString) (stream : List UInt8) :
    List ServerSentEvent :=
  (((stream.splitOn newline).map trimCR).splitOn []).filterMap (blockEvent decode)

/-! ## The lines -/

namespace ConcatSink

/-- Where a chunk has a newline, it ends the pending line. -/
theorem splitOn_first {chunk rest : List UInt8} {u : UInt8}
    (h : chunk.dropWhile (· ≠ newline) = u :: rest) {pending : List UInt8}
    (hpending : newline ∉ pending) (later : List UInt8) :
    (pending ++ chunk ++ later).splitOn newline =
      (pending ++ chunk.takeWhile (· ≠ newline)) :: (rest ++ later).splitOn newline := by
  have hu : u = newline := by
    have hne : chunk.dropWhile (· ≠ newline) ≠ [] := h ▸ cons_ne_nil _ _
    have hhead := head_dropWhile_not (· ≠ newline) hne
    simp only [h, head_cons] at hhead
    simpa using hhead
  have hfirst : newline ∉ chunk.takeWhile (· ≠ newline) := fun hmem => by
    simpa using mem_takeWhile_imp hmem
  have hchunk : chunk.takeWhile (· ≠ newline) ++ newline :: rest = chunk := by
    have hsplit := takeWhile_append_dropWhile (p := (· ≠ newline)) (l := chunk)
    rwa [h, hu] at hsplit
  have hjoined : newline ∉ pending ++ chunk.takeWhile (· ≠ newline) := fun hmem => by
    rcases mem_append.mp hmem with hmem | hmem
    · exact hpending hmem
    · exact hfirst hmem
  calc (pending ++ chunk ++ later).splitOn newline
      = (pending ++ chunk.takeWhile (· ≠ newline) ++ newline :: (rest ++ later)).splitOn
          newline := by
        conv_lhs => rw [← hchunk]
        simp only [append_assoc, cons_append]
    _ = _ := splitOn_append_cons_self_of_not_mem hjoined _

/-- What the sink has is the line that has not ended: it and the lines yielded are the lines
of the bytes that were pending and of the chunk, whatever comes later. -/
theorem linesFrom_spec (alloc : Allocator) {fuel : Nat} {chunk : List UInt8} {sink : ConcatSink}
    (hfuel : chunk.length ≤ fuel) (hsink : newline ∉ sink.content) (later : List UInt8) :
    newline ∉ (linesFrom alloc fuel sink chunk).2.content ∧
      (sink.content ++ chunk ++ later).splitOn newline = (linesFrom alloc fuel sink chunk).1 ++
        ((linesFrom alloc fuel sink chunk).2.content ++ later).splitOn newline := by
  induction fuel generalizing chunk sink with
  | zero =>
    rw [length_eq_zero_iff.mp (Nat.le_zero.mp hfuel), append_nil]
    exact ⟨hsink, rfl⟩
  | succ fuel ih =>
    unfold linesFrom
    by_cases hchunk : chunk = []
    · rw [if_pos hchunk, hchunk, append_nil]
      exact ⟨hsink, rfl⟩
    rw [if_neg hchunk]
    cases hdrop : chunk.dropWhile (· ≠ newline) with
    | nil =>
      have hline : newline ∉ sink.content ++ chunk := fun hmem => by
        rcases mem_append.mp hmem with hmem | hmem
        · exact hsink hmem
        · simpa using dropWhile_eq_nil_iff.mp hdrop newline hmem
      rw [content_append]
      exact ⟨hline, rfl⟩
    | cons u rest =>
      have hrest : rest.length ≤ fuel := by
        have hle := length_dropWhile_le (· ≠ newline) chunk
        rw [hdrop, length_cons] at hle
        omega
      have hfirst := splitOn_first hdrop hsink later
      dsimp only
      by_cases hempty : sink.isEmpty
      · -- the line lies in the chunk and the sink is not touched
        have hnil := (isEmpty_iff sink).mp hempty
        obtain ⟨hpending, hlines⟩ := ih hrest hsink
        rw [hnil, nil_append] at hlines
        rw [if_pos hempty, hfirst, hlines, hnil]
        exact ⟨hpending, rfl⟩
      · have hne : sink.content ≠ [] := fun hnil => hempty ((isEmpty_iff sink).mpr hnil)
        obtain ⟨hpending, hlines⟩ := @ih rest (sink.append alloc _).clear hrest
          (by rw [content_clear]; exact not_mem_nil)
        rw [content_clear, nil_append] at hlines
        rw [if_neg hempty, flush_eq, content_append,
          if_neg fun hnil => hne (append_eq_nil_iff.mp hnil).1, hfirst, hlines]
        exact ⟨hpending, rfl⟩

end ConcatSink

theorem pushLines_append (lines lines' : List (List UInt8)) (state : SseEventState) :
    pushLines decode (lines ++ lines') state =
      let out := pushLines decode lines state
      let out' := pushLines decode lines' out.2
      (out.1 ++ out'.1, out'.2) := by
  induction lines generalizing state with
  | nil => rfl
  | cons line lines ih =>
    rw [cons_append, pushLines, ih, pushLines]
    simp only [append_assoc]

/-- The sink after some chunks has the line that has not ended, and the lines that were given
to `pushSseLine` and it are the lines of the stream so far. -/
theorem pushChunks_spec (decode : List UInt8 → JsString) (alloc : Allocator)
    (chunks : List (List UInt8)) {sink : ConcatSink} (hsink : newline ∉ sink.content)
    (state : SseEventState) : ∃ lines, (sink.content ++ chunks.flatten).splitOn newline =
        lines ++ [(pushChunks decode alloc chunks sink state).2.1.content] ∧
      (pushChunks decode alloc chunks sink state).1 = (pushLines decode lines state).1 ∧
      (pushChunks decode alloc chunks sink state).2.2 = (pushLines decode lines state).2 := by
  induction chunks generalizing sink state with
  | nil =>
    refine ⟨[], ?_, rfl, rfl⟩
    rw [flatten_nil, append_nil]
    exact splitOn_eq_singleton hsink
  | cons chunk chunks ih =>
    obtain ⟨hfound, hlines⟩ :=
      ConcatSink.linesFrom_spec alloc (chunk.length.le_refl) hsink chunks.flatten
    obtain ⟨lines, hsplit, hevents, hstate⟩ := ih hfound
      (pushLines decode (sink.appendAndFlushLines alloc chunk).1 state).2
    refine ⟨(sink.appendAndFlushLines alloc chunk).1 ++ lines, ?_, ?_, ?_⟩
    · rw [flatten_cons, ← append_assoc, hlines, append_assoc]
      exact congrArg _ hsplit
    · rw [pushLines_append]
      exact congrArg _ hevents
    · rw [pushLines_append]
      exact hstate

/-! ## The events -/

/-- The state after the lines of a block. -/
def blockState (decode : List UInt8 → JsString) (block : List (List UInt8)) : SseEventState :=
  let data := fieldValues decode (js "data") block
  ⟨(fieldValues decode (js "event") block).getLast?,
    if data = [] then none else some (unlines data), block.map decode⟩

theorem flushSseEvent_blockState (block : List (List UInt8)) :
    flushSseEvent (blockState decode block) = (blockEvent decode block, .initial) := by
  unfold flushSseEvent blockEvent blockState
  by_cases hdata : fieldValues decode (js "data") block = []
  · by_cases hevent : fieldValues decode (js "event") block = []
    · simp [hdata, hevent, SseEventState.initial]
    · simp [hdata, hevent, SseEventState.initial]
  · simp [hdata, SseEventState.initial]

theorem pushSseLine_blank (decode : List UInt8 → JsString) {line : List UInt8}
    (h : trimCR line = []) (state : SseEventState) :
    pushSseLine decode line state = flushSseEvent state := by
  unfold pushSseLine
  rw [if_pos h]

theorem fieldValues_append (name : JsString) (block : List (List UInt8)) (line : List UInt8) :
    fieldValues decode name (block ++ [line]) = fieldValues decode name block ++
      ((lineField decode line).bind fun field =>
        if field.1 = name then some field.2 else none).toList := by
  rw [fieldValues, filterMap_append, ← fieldValues, filterMap_cons]
  cases (lineField decode line).bind fun field => if field.1 = name then some field.2 else none <;>
    rfl

theorem unlines_snoc {ls : List JsString} (h : ls ≠ []) (l : JsString) :
    unlines (ls ++ [l]) = unlines ls ++ LF :: l := by
  induction ls with
  | nil => exact absurd rfl h
  | cons l' ls ih =>
    by_cases hls : ls = []
    · rw [hls, cons_append, nil_append, unlines_cons_cons, unlines_singleton, unlines_singleton]
    · rw [cons_append, unlines_cons_of_ne_nil _ (append_ne_nil_of_left_ne_nil hls _),
        unlines_cons_of_ne_nil _ hls, ih hls, append_assoc, cons_append]

theorem pushSseLine_blockState {line : List UInt8} (h : trimCR line ≠ [])
    (block : List (List UInt8)) : pushSseLine decode line (blockState decode block) =
      (none, blockState decode (block ++ [trimCR line])) := by
  unfold pushSseLine
  rw [if_neg h]
  dsimp only [blockState]
  simp only [fieldValues_append, lineField, map_append, map_cons, map_nil]
  by_cases hcomment : (trimCR line).head? = some 0x3a
  · simp [hcomment]
  by_cases hevent : (splitField (decode (trimCR line))).1 = js "event"
  · have hdata : js "event" ≠ js "data" := by decide
    simp [hcomment, hevent, hdata]
  by_cases hdata : (splitField (decode (trimCR line))).1 = js "data"
  · have hne : js "data" ≠ js "event" := by decide
    by_cases hnil : fieldValues decode (js "data") block = []
    · simp [hcomment, hdata, hne, hnil]
    · have hjoin := unlines_snoc hnil (splitField (decode (trimCR line))).2
      simp [hcomment, hdata, hne, hnil, hjoin]
  · simp [hcomment, hevent, hdata]

theorem pushLines_events (decode : List UInt8 → JsString) (lines : List (List UInt8))
    {block : List (List UInt8)} (hblock : [] ∉ block) :
    (pushLines decode lines (blockState decode block)).1 ++
        (flushSseEvent (pushLines decode lines (blockState decode block)).2).1.toList =
      ((block ++ lines.map trimCR).splitOn []).filterMap (blockEvent decode) := by
  induction lines generalizing block with
  | nil =>
    rw [map_nil, append_nil, splitOn_eq_singleton hblock, pushLines, flushSseEvent_blockState]
    cases hevent : blockEvent decode block <;> simp [hevent]
  | cons line lines ih =>
    rw [pushLines, map_cons]
    by_cases hline : trimCR line = []
    · rw [hline, splitOn_append_cons_self_of_not_mem hblock, pushSseLine_blank decode hline,
        flushSseEvent_blockState]
      have hrest := @ih [] not_mem_nil
      rw [nil_append] at hrest
      have hinitial : blockState decode [] = .initial := rfl
      rw [filterMap_cons, ← hrest, hinitial, append_assoc]
      cases blockEvent decode block <;> rfl
    · have hrest := @ih (block ++ [trimCR line]) fun hmem => by
        rcases mem_append.mp hmem with hmem | hmem
        · exact hblock hmem
        · exact hline (mem_singleton.mp hmem).symm
      rw [append_assoc, singleton_append] at hrest
      rw [pushSseLine_blockState decode hline, ← hrest]
      rfl

theorem flushSseEvent_twice (state : SseEventState) :
    (flushSseEvent (flushSseEvent state).2).1 = none := by
  by_cases hempty : state.event = none ∧ state.data = none
  · simp [flushSseEvent, hempty]
  · simp [flushSseEvent, hempty]

/-- At the end of the stream, a rest without a newline is a line like the others. -/
theorem readSseEvents_lines (alloc : Allocator) (chunks : List (List UInt8)) :
    let lines := chunks.flatten.splitOn newline
    readSseEvents decode alloc chunks = (pushLines decode lines .initial).1 ++
      (flushSseEvent (pushLines decode lines .initial).2).1.toList := by
  obtain ⟨lines, hsplit, hevents, hstate⟩ :=
    @pushChunks_spec decode alloc chunks .empty not_mem_nil .initial
  rw [ConcatSink.content_empty, nil_append] at hsplit
  dsimp only
  rw [hsplit, pushLines_append]
  unfold readSseEvents
  dsimp only
  rw [ConcatSink.flush_eq, hstate, hevents]
  generalize (pushChunks decode alloc chunks .empty .initial).2.1.content = tail
  by_cases htail : tail = []
  · rw [if_pos htail, htail]
    have hblank := @pushSseLine_blank decode [] rfl
    simp only [pushLines, hblank, flushSseEvent_twice, append_nil, toList_none]
  · rw [if_neg htail]
    simp only [pushLines, append_nil]

/-- **The events are those of the whole stream**, however it is cut into chunks. -/
theorem readSseEvents_eq (decode : List UInt8 → JsString) (alloc : Allocator)
    (chunks : List (List UInt8)) :
    readSseEvents decode alloc chunks = referenceEvents decode chunks.flatten := by
  have hevents := @pushLines_events decode (chunks.flatten.splitOn newline) [] not_mem_nil
  rw [nil_append] at hevents
  exact (readSseEvents_lines decode alloc chunks).trans hevents

end SseStream
end GajaeCode
