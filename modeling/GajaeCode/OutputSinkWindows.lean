import GajaeCode.OutputSink

/-! # The windows of the output sink

The head of a sink is filled by bytes and takes whole characters only, so it may stay
short of its limit when the next character does not fit.  That character then goes to
the tail, but the head is not closed: a later chunk whose first characters are smaller
still finds room in it.  As long as no chunk overtakes the text before it in this way,
the head is a prefix and the tail a suffix of what was processed, and `dump` shows all
of it when nothing was trimmed.
-/
namespace GajaeCode
open JsString List

namespace OutputSink

/-- The windows of the sink hold the given characters, and their sizes are right. -/
structure Holds (s : OutputSink) (hs ts : List Char) : Prop where
  head : s.head = ofChars hs
  headBytes : s.headBytes = byteSize hs
  tail : s.buffer = ofChars ts
  tailBytes : s.bufferBytes = byteSize ts
  enabled : s.headRetentionDisabled = false

@[simp] theorem byteLength_ofChars (cs : List Char) : byteLength (ofChars cs) = byteSize cs := by
  rw [byteLength, utf8_ofChars, length_charBytes]

/-- Text for the tail: an end part of what was there and what came is kept. -/
theorem pushTail_holds {s : OutputSink} {hs ts : List Char} (h : s.Holds hs ts) (cs : List Char) :
    ∃ ts', (s.pushTail (ofChars cs) (byteSize cs)).Holds hs ts' ∧ ts' <:+ ts ++ cs := by
  simp only [pushTail]
  split_ifs with hzero hroom hlarge
  · rw [byteSize_eq_zero hzero, append_nil]
    exact ⟨ts, h, suffix_rfl⟩
  · refine ⟨ts ++ cs, ⟨h.head, h.headBytes, ?_, ?_, h.enabled⟩, suffix_rfl⟩
    · rw [appendTail, h.tail, ofChars_append]
    · rw [appendTail, h.tailBytes, byteSize_append]
  · refine ⟨fitTail s.spillThreshold cs, ⟨h.head, h.headBytes, ?_, ?_, h.enabled⟩,
      (fitTail_suffix _ cs).trans (suffix_append ts cs)⟩
    · simp only [setTail, truncateTailBytes_ofChars]
    · simp only [setTail, truncateTailBytes_ofChars]
  · have hjoined : s.buffer ++ ofChars cs = ofChars (ts ++ cs) := by
      rw [h.tail, ofChars_append]
    have hbytes : ¬ s.bufferBytes + byteSize cs ≤ s.spillThreshold := hroom
    refine ⟨fitTail s.spillThreshold (ts ++ cs), ⟨?_, ?_, ?_, ?_, ?_⟩, fitTail_suffix _ _⟩
    all_goals simp only [trimTailTo, appendTail, setTail, if_neg hbytes, hjoined,
      truncateTailBytes_ofChars]
    · exact h.head
    · exact h.headBytes
    · exact h.enabled

/-- What a visible chunk gives to the head. -/
def taken (s : OutputSink) (vs : List Char) : List Char :=
  fitHead (s.headLimit - s.headBytes) vs

/-- A visible chunk: the head takes the characters that fit, the tail the others. -/
theorem retain_holds {s : OutputSink} {hs ts : List Char} (h : s.Holds hs ts) (vs : List Char) :
    ∃ ts', (s.retain (ofChars vs) (byteSize vs)).Holds (hs ++ s.taken vs) ts' ∧
      ts' <:+ ts ++ vs.drop (s.taken vs).length := by
  have hopened : ∀ cs, (s.appendHead (ofChars cs) (byteSize cs)).Holds (hs ++ cs) ts := by
    intro cs
    refine ⟨?_, ?_, h.tail, h.tailBytes, h.enabled⟩
    · rw [appendHead, h.head, ofChars_append]
    · rw [appendHead, h.headBytes, byteSize_append]
  simp only [retain]
  split_ifs with hopen hfits hslice
  · -- the chunk fits as a whole
    have hall : s.taken vs = vs := fitHead_of_le hfits
    rw [hall, drop_length, append_nil]
    exact ⟨ts, hopened vs, suffix_rfl⟩
  · -- a front part of it fits
    rw [truncateHeadBytes_ofChars] at hslice ⊢
    obtain ⟨c, rest, hsplit, -⟩ :=
      (fitHead_cases (s.headLimit - s.headBytes) vs).resolve_left (fun hall => hfits hall.2)
    change vs = s.taken vs ++ c :: rest at hsplit
    change ∃ ts', ((s.appendHead (ofChars (s.taken vs)) (byteSize (s.taken vs))).pushTail
      ((ofChars vs).drop (ofChars (s.taken vs)).length)
      (byteSize vs - byteSize (s.taken vs))).Holds _ ts' ∧ _
    generalize s.taken vs = fit at hsplit ⊢
    subst hsplit
    rw [ofChars_append, drop_left, drop_left, byteSize_append, Nat.add_sub_cancel_left]
    exact pushTail_holds (hopened fit) (c :: rest)
  · -- not even its first character
    rw [truncateHeadBytes_ofChars] at hslice
    have hnone : s.taken vs = [] := byteSize_eq_zero (Nat.le_zero.mp (Nat.not_lt.mp hslice))
    rw [hnone, append_nil]
    exact pushTail_holds h vs
  · -- the head is full, or there is none
    have hroom : s.headLimit - s.headBytes = 0 := by
      by_contra hne
      exact hopen ⟨by omega, h.enabled, by omega⟩
    have hnone : s.taken vs = [] := by
      rw [taken, hroom]
      exact byteSize_eq_zero (Nat.le_zero.mp (byteSize_fitHead_le 0 vs))
    rw [hnone, append_nil]
    exact pushTail_holds h vs

/-- The limits, the processed count and the pending batch, which the windows do not
touch. -/
structure SameLimits (s s' : OutputSink) : Prop where
  headLimit : s'.headLimit = s.headLimit
  spillThreshold : s'.spillThreshold = s.spillThreshold
  processedBytes : s'.processedBytes = s.processedBytes
  coalesceBuf : s'.coalesceBuf = s.coalesceBuf

theorem pushTail_sameLimits (s : OutputSink) (chunk : JsString) (n : Nat) :
    s.SameLimits (s.pushTail chunk n) := by
  simp only [pushTail, trimTailTo]
  split_ifs <;> exact ⟨rfl, rfl, rfl, rfl⟩

theorem retain_sameLimits (s : OutputSink) (chunk : JsString) (n : Nat) :
    s.SameLimits (s.retain chunk n) := by
  simp only [retain]
  split_ifs
  · exact ⟨rfl, rfl, rfl, rfl⟩
  · obtain ⟨h1, h2, h3, h4⟩ := pushTail_sameLimits (s.appendHead
      (truncateHeadBytes chunk (s.headLimit - s.headBytes)).text
      (truncateHeadBytes chunk (s.headLimit - s.headBytes)).bytes)
      (chunk.drop (truncateHeadBytes chunk (s.headLimit - s.headBytes)).text.length)
      (n - (truncateHeadBytes chunk (s.headLimit - s.headBytes)).bytes)
    exact ⟨h1, h2, h3, h4⟩
  · exact pushTail_sameLimits s chunk n
  · exact pushTail_sameLimits s chunk n

theorem wellFormed_capSegment (max : Nat) (st : ColumnState) {segment : JsString}
    (h : WellFormed segment) : WellFormed (capSegment max st segment).1 := by
  obtain ⟨cs, rfl⟩ := exists_ofChars h
  have hellipsis : WellFormed ellipsis := (wellFormed_cons (by decide) []).mpr trivial
  simp only [capSegment]
  split_ifs
  · trivial
  · trivial
  · exact h
  · rw [truncateHeadBytes_ofChars]
    exact wellFormed_append (wellFormed_ofChars _) hellipsis
  · exact wellFormed_append trivial hellipsis

theorem wellFormed_capLines (max : Nat) (st : ColumnState) {segments : List JsString}
    (h : ∀ segment ∈ segments, WellFormed segment) : WellFormed (capLines max st segments).1 := by
  induction segments generalizing st with
  | nil => trivial
  | cons segment rest ih =>
    have hfirst := wellFormed_capSegment max st (h segment mem_cons_self)
    cases rest with
    | nil => exact hfirst
    | cons next rest =>
      rw [capLines]
      apply wellFormed_append hfirst
      apply (wellFormed_cons isScalarUnit_LF _).mpr
      exact ih _ (fun l hl => h l (mem_cons_of_mem _ hl))

theorem wellFormed_visible {host : SinkHost}
    (hhost : ∀ text, WellFormed text → WellFormed (host.sanitizeOutputChunk text))
    (s : OutputSink) {rawChunk : JsString} (h : WellFormed rawChunk) :
    WellFormed (s.visible host rawChunk).1 := by
  simp only [visible, applyColumnCap]
  split_ifs
  · exact hhost _ h
  · exact wellFormed_capLines _ _ (fun l hl => wellFormed_of_mem_lines (hhost _ h) hl)
  · exact hhost _ h

end OutputSink

/-! ## A sink with the stream it has processed -/

/-- A sink, and the visible text of everything it has ingested. -/
structure TracedSink where
  sink : OutputSink
  stream : JsString

namespace TracedSink
open OutputSink

variable (host : SinkHost)

/-- `#ingest`: the visible chunk joins the stream. -/
def ingest (t : TracedSink) (rawChunk : JsString) : TracedSink where
  sink := t.sink.ingest host rawChunk
  stream := t.stream ++ if byteLength rawChunk = 0 then [] else (t.sink.visible host rawChunk).1

def flushCoalesced (t : TracedSink) : TracedSink :=
  if t.sink.coalesceBuf.length = 0 then t
  else ingest host { t with sink := { t.sink with coalesceBuf := [] } } t.sink.coalesceBuf

def push (t : TracedSink) (chunk : JsString) : TracedSink :=
  if t.sink.coalesceSanitize = false then t.ingest host chunk
  else
    let t := { t with sink := { t.sink with coalesceBuf := t.sink.coalesceBuf ++ chunk } }
    if coalesceFlushChars ≤ t.sink.coalesceBuf.length then t.flushCoalesced host else t

/-- A new sink, nothing processed. -/
def start (options : OutputSinkOptions) : TracedSink := ⟨create options, []⟩

def run (t : TracedSink) (chunks : List JsString) : TracedSink := chunks.foldl (push host) t

theorem flushCoalesced_sink (t : TracedSink) :
    (t.flushCoalesced host).sink = t.sink.flushCoalesced host := by
  simp only [flushCoalesced, OutputSink.flushCoalesced]
  split_ifs <;> rfl

/-- The stream is a record: the sinks are those of the code. -/
theorem run_sink (t : TracedSink) (chunks : List JsString) :
    (t.run host chunks).sink = chunks.foldl (OutputSink.push host) t.sink := by
  induction chunks generalizing t with
  | nil => rfl
  | cons chunk chunks ih =>
    refine (ih (t.push host chunk)).trans (congrArg (chunks.foldl _) ?_)
    simp only [push, OutputSink.push]
    split_ifs
    · rfl
    · exact flushCoalesced_sink host _
    · rfl

/-- What the windows are for: the head is a prefix of the stream, the tail a suffix,
and they do not overlap. -/
structure Windows (t : TracedSink) : Prop where
  head_prefix : t.sink.head <+: t.stream
  tail_suffix : t.sink.buffer <:+ t.stream
  disjoint : t.sink.head.length + t.sink.buffer.length ≤ t.stream.length

/-- The sink shows its stream faithfully: the windows are what they should be, now and
when `dump` has flushed the pending batch, and if they then make up the whole stream,
`dump` returns exactly that stream. -/
structure Faithful (t : TracedSink) : Prop where
  windows : t.Windows
  flushed : (t.flushCoalesced host).Windows
  dump : (t.flushCoalesced host).sink.head.length + (t.flushCoalesced host).sink.buffer.length =
      (t.flushCoalesced host).stream.length →
    (t.sink.dump host none).1.output = (t.flushCoalesced host).stream

/-- A chunk overtakes the text before it: something already processed is not in the
head, and some of the chunk fits the room that is left there. -/
def Overtakes (t : TracedSink) (rawChunk : JsString) : Prop :=
  byteLength rawChunk ≠ 0 ∧ t.sink.headBytes < t.sink.processedBytes ∧
    0 < (truncateHeadBytes (t.sink.visible host rawChunk).1
      (t.sink.headLimit - t.sink.headBytes)).bytes

/-- Flushing the pending batch does not overtake. -/
def FlushInOrder (t : TracedSink) : Prop := ¬ t.Overtakes host t.sink.coalesceBuf

/-- Pushing the chunk does not overtake. -/
def PushInOrder (t : TracedSink) (chunk : JsString) : Prop :=
  if t.sink.coalesceSanitize = false then ¬ t.Overtakes host chunk
  else if coalesceFlushChars ≤ (t.sink.coalesceBuf ++ chunk).length then
    ¬ t.Overtakes host (t.sink.coalesceBuf ++ chunk)
  else True

/-- No chunk of the run overtakes, and neither would a flush at any point of it. -/
def InOrder : List JsString → TracedSink → Prop
  | [], t => t.FlushInOrder host
  | chunk :: chunks, t =>
      t.FlushInOrder host ∧ t.PushInOrder host chunk ∧ InOrder chunks (t.push host chunk)

/-- The characters behind the state: `hs` in the head, `rs` after them in the stream,
`ts` of these in the tail.  If something is not in the head, its first character does
not fit there. -/
structure Retained (t : TracedSink) (hs rs ts : List Char) : Prop where
  holds : t.sink.Holds hs ts
  stream : t.stream = ofChars (hs ++ rs)
  processed : t.sink.processedBytes = byteSize (hs ++ rs)
  suffix : ts <:+ rs
  closed : ∀ c rest, rs = c :: rest → t.sink.headLimit < byteSize hs + c.utf8Size
  pending : WellFormed t.sink.coalesceBuf

theorem retained_start (options : OutputSinkOptions) : (start options).Retained [] [] [] :=
  ⟨⟨rfl, rfl, rfl, rfl, rfl⟩, rfl, rfl, suffix_rfl, fun _ _ h => (nomatch h), trivial⟩

theorem Retained.windows {t : TracedSink} {hs rs ts : List Char} (h : t.Retained hs rs ts) :
    t.Windows := by
  obtain ⟨front, hfront⟩ := h.suffix
  refine ⟨?_, ?_, ?_⟩
  · rw [h.holds.head, h.stream, ofChars_append]
    exact prefix_append _ _
  · rw [h.holds.tail, h.stream, ← hfront, ← append_assoc, ofChars_append (hs ++ front)]
    exact suffix_append _ _
  · rw [h.holds.head, h.holds.tail, h.stream, ← hfront]
    simp only [ofChars_append, length_append]
    omega

/-- A stream that the windows make up is what `dump` composes. -/
theorem Retained.body_eq {t : TracedSink} {hs rs ts : List Char} (h : t.Retained hs rs ts)
    (hwhole : t.sink.head.length + t.sink.buffer.length = t.stream.length) :
    (t.sink.body host).text = t.stream := by
  obtain ⟨front, hfront⟩ := h.suffix
  rw [h.holds.head, h.holds.tail, h.stream, ← hfront] at hwhole
  simp only [ofChars_append, length_append] at hwhole
  obtain rfl : front = [] := by
    cases front with
    | nil => rfl
    | cons c front =>
      rw [ofChars_cons, length_append, length_units] at hwhole
      split_ifs at hwhole <;> omega
  rw [nil_append] at hfront
  have hnone : ¬ (0 < byteLength t.sink.head ∧
      byteLength t.sink.head + byteLength t.sink.buffer < t.sink.processedBytes) := by
    rw [h.holds.head, h.holds.tail, h.processed, ← hfront, byteLength_ofChars,
      byteLength_ofChars, byteSize_append]
    omega
  simp only [body, if_neg hnone]
  rw [h.stream, ← hfront, h.holds.head, h.holds.tail, byteLength_ofChars]
  by_cases hhead : 0 < byteSize hs
  · rw [if_pos hhead, ofChars_append]
  · rw [if_neg hhead, byteSize_eq_zero (Nat.eq_zero_of_not_pos hhead)]
    rfl

/-! ## One chunk -/

section Ingest
variable {rawChunk : JsString} {t : TracedSink} {vs : List Char}

variable {host}

theorem countVisible_processedBytes (s : OutputSink) (cs : List Char) :
    (s.countVisible (ofChars cs)).processedBytes = s.processedBytes + byteSize cs := by
  rw [countVisible]
  split_ifs with hpos
  · rw [byteLength_ofChars]
  · have hnil : ofChars cs = ofChars [] := by simpa using hpos
    rw [ofChars_injective hnil]
    rfl

/-- The sink before its windows are touched: counted, but holding the same. -/
theorem ingest_eq (t : TracedSink) (hraw : byteLength rawChunk ≠ 0)
    (hvs : (t.sink.visible host rawChunk).1 = ofChars vs) : ∃ seen : OutputSink,
      (t.ingest host rawChunk).sink =
        (if byteSize vs = 0 then seen else seen.retain (ofChars vs) (byteSize vs)) ∧
      (t.ingest host rawChunk).stream = t.stream ++ ofChars vs ∧
      seen.processedBytes = t.sink.processedBytes + byteSize vs ∧
      (∀ hs ts, t.sink.Holds hs ts → seen.Holds hs ts) ∧
      seen.headLimit = t.sink.headLimit ∧ seen.headBytes = t.sink.headBytes ∧
      seen.coalesceBuf = t.sink.coalesceBuf := by
  have hvisible : ((t.sink.countRaw rawChunk).visible host rawChunk).1 = ofChars vs := by
    rw [← hvs]
    simp only [countRaw]
    split_ifs <;> rfl
  refine ⟨{ t.sink.countRaw rawChunk with
    column := ((t.sink.countRaw rawChunk).visible host rawChunk).2 }.countVisible (ofChars vs),
    ?_, ?_, ?_, ?_, ?_, ?_, ?_⟩
  · simp only [ingest, OutputSink.ingest, if_neg hraw, hvisible, byteLength_ofChars]
  · simp only [ingest, if_neg hraw, hvs]
  · rw [countVisible_processedBytes]
    simp only [countRaw]
    split_ifs <;> rfl
  · intro hs ts h
    simp only [countVisible, countRaw]
    split_ifs <;> exact ⟨h.head, h.headBytes, h.tail, h.tailBytes, h.enabled⟩
  all_goals
    simp only [countVisible, countRaw]
    split_ifs <;> rfl

theorem ingest_empty (t : TracedSink) (hraw : byteLength rawChunk = 0) :
    (t.ingest host rawChunk).sink = t.sink.countRaw rawChunk ∧
      (t.ingest host rawChunk).stream = t.stream := by
  constructor
  · rw [ingest, OutputSink.ingest, if_pos hraw]
  · simp only [ingest, if_pos hraw, append_nil]

section
variable {hs rs ts : List Char} (h : t.Retained hs rs ts)
include h

/-- After a chunk: its front part in the head, the rest of it behind in the tail. -/
theorem Retained.ingest_holds (hraw : byteLength rawChunk ≠ 0)
    (hvs : (t.sink.visible host rawChunk).1 = ofChars vs) :
    ∃ ts', (t.ingest host rawChunk).sink.Holds (hs ++ t.sink.taken vs) ts' ∧
      ts' <:+ ts ++ vs.drop (t.sink.taken vs).length ∧
      (t.ingest host rawChunk).stream = ofChars (hs ++ rs ++ vs) ∧
      (t.ingest host rawChunk).sink.processedBytes = byteSize (hs ++ rs ++ vs) ∧
      (t.ingest host rawChunk).sink.headLimit = t.sink.headLimit ∧
      (t.ingest host rawChunk).sink.coalesceBuf = t.sink.coalesceBuf := by
  obtain ⟨seen, hsink, hstream, hprocessed, hholds, hlimit, hbytes, hpending⟩ :=
    ingest_eq t hraw hvs
  have htaken : seen.taken vs = t.sink.taken vs := by rw [taken, taken, hlimit, hbytes]
  rw [hsink, hstream, h.stream, ofChars_append (hs ++ rs) vs, byteSize_append, ← h.processed,
    ← hprocessed]
  split_ifs with hempty
  · obtain rfl := byteSize_eq_zero hempty
    rw [taken, fitHead, append_nil, drop_nil, append_nil]
    exact ⟨ts, hholds hs ts h.holds, suffix_rfl, rfl, rfl, hlimit, hpending⟩
  · obtain ⟨ts', hholds', hsuffix⟩ := retain_holds (hholds hs ts h.holds) vs
    rw [htaken] at hholds' hsuffix
    obtain ⟨hlimit', -, hprocessed', hpending'⟩ :=
      retain_sameLimits seen (ofChars vs) (byteSize vs)
    exact ⟨ts', hholds', hsuffix, rfl, hprocessed', hlimit'.trans hlimit, hpending'.trans hpending⟩

theorem Retained.overtakes_iff (hraw : byteLength rawChunk ≠ 0)
    (hvs : (t.sink.visible host rawChunk).1 = ofChars vs) :
    t.Overtakes host rawChunk ↔ rs ≠ [] ∧ t.sink.taken vs ≠ [] := by
  have hrest : t.sink.headBytes < t.sink.processedBytes ↔ rs ≠ [] := by
    rw [h.holds.headBytes, h.processed, byteSize_append]
    constructor
    · rintro hlt rfl
      simp at hlt
    · intro hne
      have : byteSize rs ≠ 0 := fun hzero => hne (byteSize_eq_zero hzero)
      omega
  have htaken : 0 < (truncateHeadBytes (t.sink.visible host rawChunk).1
      (t.sink.headLimit - t.sink.headBytes)).bytes ↔ t.sink.taken vs ≠ [] := by
    rw [hvs, truncateHeadBytes_ofChars]
    change 0 < byteSize (t.sink.taken vs) ↔ _
    constructor
    · intro hpos hnil
      rw [hnil] at hpos
      exact absurd hpos (by decide)
    · intro hne
      exact Nat.pos_of_ne_zero (fun hzero => hne (byteSize_eq_zero hzero))
  rw [Overtakes, hrest, htaken]
  exact and_iff_right hraw

/-- **A chunk in order** keeps the invariant. -/
theorem Retained.ingest
    (hhost : ∀ text, WellFormed text → WellFormed (host.sanitizeOutputChunk text))
    (hwf : WellFormed rawChunk) (horder : ¬ t.Overtakes host rawChunk) :
    ∃ hs' rs' ts', (t.ingest host rawChunk).Retained hs' rs' ts' := by
  by_cases hraw : byteLength rawChunk = 0
  · obtain ⟨hsink, hstream⟩ : (t.ingest host rawChunk).sink = t.sink.countRaw rawChunk ∧
        (t.ingest host rawChunk).stream = t.stream := ingest_empty t hraw
    have hkept : (t.sink.countRaw rawChunk).Holds hs ts := by
      simp only [countRaw]
      split_ifs <;>
        exact ⟨h.holds.head, h.holds.headBytes, h.holds.tail, h.holds.tailBytes, h.holds.enabled⟩
    have hsame : t.sink.SameLimits (t.sink.countRaw rawChunk) := by
      simp only [countRaw]
      split_ifs <;> exact ⟨rfl, rfl, rfl, rfl⟩
    refine ⟨hs, rs, ts, ⟨hsink ▸ hkept, hstream ▸ h.stream, ?_, h.suffix, ?_, ?_⟩⟩
    · rw [hsink, hsame.processedBytes, h.processed]
    · rw [hsink, hsame.headLimit]
      exact h.closed
    · rw [hsink, hsame.coalesceBuf]
      exact h.pending
  · obtain ⟨vs, hvs⟩ := exists_ofChars (wellFormed_visible hhost t.sink hwf)
    rw [h.overtakes_iff hraw hvs, not_and_or, not_not, not_not] at horder
    obtain ⟨ts', hholds, hsuffix, hstream, hprocessed, hlimit, hpending⟩ := h.ingest_holds hraw hvs
    have hcases := fitHead_cases (t.sink.headLimit - byteSize hs) vs
    rw [← h.holds.headBytes] at hcases
    change (t.sink.taken vs = vs ∧ _) ∨ ∃ c rest, vs = t.sink.taken vs ++ c :: rest ∧
      t.sink.headLimit - t.sink.headBytes < byteSize (t.sink.taken vs) + c.utf8Size at hcases
    rw [h.holds.headBytes] at hcases
    rcases horder with hrs | hnone
    · -- everything so far is in the head
      subst hrs
      obtain rfl := suffix_nil.mp h.suffix
      rw [append_nil] at hstream hprocessed
      rcases hcases with ⟨hall, -⟩ | ⟨c, rest, hsplit, hroom⟩
      · rw [hall] at hholds hsuffix
        rw [drop_length] at hsuffix
        refine ⟨hs ++ vs, [], ts', hholds, ?_, ?_, hsuffix, fun _ _ hnil => (nomatch hnil), ?_⟩
        · rw [hstream, append_nil]
        · rw [hprocessed, append_nil]
        · rw [hpending]
          exact h.pending
      · generalize t.sink.taken vs = fit at hsplit hroom hholds hsuffix
        subst hsplit
        rw [drop_left, nil_append] at hsuffix
        rw [← append_assoc] at hstream hprocessed
        refine ⟨hs ++ fit, c :: rest, ts', hholds, hstream, hprocessed, hsuffix, ?_, ?_⟩
        · intro c' rest' hcons
          obtain ⟨rfl, -⟩ := List.cons.inj hcons
          rw [hlimit, byteSize_append]
          omega
        · rw [hpending]
          exact h.pending
    · -- nothing of the chunk goes to the head
      rw [hnone, append_nil] at hholds
      rw [hnone, length_nil, drop_zero] at hsuffix
      rw [append_assoc] at hstream hprocessed
      obtain ⟨front, hfront⟩ := h.suffix
      have hbehind : ts ++ vs <:+ rs ++ vs := ⟨front, by rw [← hfront, append_assoc]⟩
      refine ⟨hs, rs ++ vs, ts', hholds, hstream, hprocessed, hsuffix.trans hbehind, ?_, ?_⟩
      · intro c rest hcons
        rw [hlimit]
        cases rs with
        | cons d rs =>
          obtain ⟨rfl, -⟩ := List.cons.inj hcons
          exact h.closed d rs rfl
        | nil =>
          rw [nil_append] at hcons
          subst hcons
          rcases hcases with ⟨hall, -⟩ | ⟨c', rest', hsplit, hroom⟩
          · rw [hnone] at hall
            exact absurd hall.symm (cons_ne_nil _ _)
          · rw [hnone, nil_append] at hsplit
            obtain ⟨rfl, -⟩ := List.cons.inj hsplit
            rw [hnone, byteSize_nil] at hroom
            omega
      · rw [hpending]
        exact h.pending

/-- **A chunk that overtakes** leaves a head that is no prefix of the stream: the first
character it puts there is smaller than the one that belongs there. -/
theorem Retained.ingest_overtakes
    (hhost : ∀ text, WellFormed text → WellFormed (host.sanitizeOutputChunk text))
    (hwf : WellFormed rawChunk) (hover : t.Overtakes host rawChunk) :
    ¬ (t.ingest host rawChunk).Windows := by
  obtain ⟨vs, hvs⟩ := exists_ofChars (wellFormed_visible hhost t.sink hwf)
  have hraw := hover.1
  rw [h.overtakes_iff hraw hvs] at hover
  obtain ⟨hrs, htaken⟩ := hover
  obtain ⟨ts', hholds, -, hstream, -⟩ := h.ingest_holds hraw hvs
  obtain ⟨r, rs, rfl⟩ := exists_cons_of_ne_nil hrs
  obtain ⟨v, fit, hfit⟩ := exists_cons_of_ne_nil htaken
  have hsmall : v.utf8Size < r.utf8Size := by
    have hsize := byteSize_fitHead_le (t.sink.headLimit - t.sink.headBytes) vs
    have hclosed := h.closed r rs rfl
    have hpos := v.utf8Size_pos
    change byteSize (t.sink.taken vs) ≤ _ at hsize
    rw [hfit, byteSize_cons, h.holds.headBytes] at hsize
    omega
  intro hwindows
  obtain ⟨rest, hrest⟩ := hwindows.head_prefix
  rw [hholds.head, hstream, hfit] at hrest
  simp only [ofChars_append, ofChars_cons, append_assoc, append_cancel_left_eq] at hrest
  have hchars := congrArg codePoints hrest
  rw [codePoints_units_append, codePoints_units_append] at hchars
  obtain ⟨rfl, -⟩ := List.cons.inj hchars
  exact absurd hsmall (lt_irrefl _)

end

end Ingest

/-! ## Flushing and pushing -/

section Push
variable {t : TracedSink}

variable {host}

section
variable {hs rs ts : List Char} (h : t.Retained hs rs ts)
include h

theorem Retained.clearPending :
    TracedSink.Retained { t with sink := { t.sink with coalesceBuf := [] } } hs rs ts :=
  ⟨⟨h.holds.head, h.holds.headBytes, h.holds.tail, h.holds.tailBytes, h.holds.enabled⟩,
    h.stream, h.processed, h.suffix, h.closed, trivial⟩

theorem Retained.addPending {chunk : JsString} (hchunk : WellFormed chunk) : TracedSink.Retained
      { t with sink := { t.sink with coalesceBuf := t.sink.coalesceBuf ++ chunk } } hs rs ts :=
  ⟨⟨h.holds.head, h.holds.headBytes, h.holds.tail, h.holds.tailBytes, h.holds.enabled⟩,
    h.stream, h.processed, h.suffix, h.closed, wellFormed_append h.pending hchunk⟩

/-- A flush in order keeps the invariant, and one out of order shows. -/
theorem Retained.flush
    (hhost : ∀ text, WellFormed text → WellFormed (host.sanitizeOutputChunk text)) :
    (t.FlushInOrder host → ∃ hs' rs' ts', (t.flushCoalesced host).Retained hs' rs' ts') ∧
      (¬ t.FlushInOrder host → ¬ (t.flushCoalesced host).Windows) := by
  rw [flushCoalesced]
  split_ifs with hempty
  · refine ⟨fun _ => ⟨hs, rs, ts, h⟩, fun hover => absurd ?_ hover⟩
    intro hover
    rw [length_eq_zero_iff.mp hempty] at hover
    exact hover.1 rfl
  · refine ⟨fun horder => h.clearPending.ingest hhost h.pending horder, fun hover => ?_⟩
    exact h.clearPending.ingest_overtakes hhost h.pending (not_not.mp hover)

theorem Retained.push (hhost : ∀ text, WellFormed text → WellFormed (host.sanitizeOutputChunk text))
    {chunk : JsString} (hchunk : WellFormed chunk) :
    (t.PushInOrder host chunk → ∃ hs' rs' ts', (t.push host chunk).Retained hs' rs' ts') ∧
      (¬ t.PushInOrder host chunk → ¬ (t.push host chunk).Windows) := by
  simp only [PushInOrder, TracedSink.push]
  split_ifs
  · exact ⟨h.ingest hhost hchunk, fun hover => h.ingest_overtakes hhost hchunk (not_not.mp hover)⟩
  · exact (h.addPending hchunk).flush hhost
  · exact ⟨fun _ => ⟨hs, rs, ts, h.addPending hchunk⟩, fun hno => absurd trivial hno⟩

/-- A state that keeps the invariant is faithful exactly when its pending batch is in
order. -/
theorem Retained.faithful_iff
    (hhost : ∀ text, WellFormed text → WellFormed (host.sanitizeOutputChunk text)) :
    t.Faithful host ↔ t.FlushInOrder host := by
  constructor
  · intro hfaithful
    by_contra hover
    exact (h.flush hhost).2 hover hfaithful.flushed
  · intro horder
    obtain ⟨hs', rs', ts', hflush⟩ := (h.flush hhost).1 horder
    refine ⟨h.windows, hflush.windows, fun hwhole => ?_⟩
    rw [← hflush.body_eq host hwhole, flushCoalesced_sink]
    rfl

theorem Retained.run_faithful_iff
    (hhost : ∀ text, WellFormed text → WellFormed (host.sanitizeOutputChunk text))
    {chunks : List JsString} (hchunks : ∀ chunk ∈ chunks, WellFormed chunk) :
    (∀ pre, pre <+: chunks → (t.run host pre).Faithful host) ↔ InOrder host chunks t := by
  induction chunks generalizing t hs rs ts with
  | nil =>
    rw [InOrder, ← h.faithful_iff hhost]
    constructor
    · exact fun hall => hall [] prefix_rfl
    · intro hfaithful pre hpre
      rw [prefix_nil.mp hpre]
      exact hfaithful
  | cons chunk chunks ih =>
    have hchunk := hchunks chunk mem_cons_self
    have hrest : ∀ c ∈ chunks, WellFormed c := fun c hc => hchunks c (mem_cons_of_mem _ hc)
    rw [InOrder, ← h.faithful_iff hhost]
    constructor
    · intro hall
      have hafter : (t.push host chunk).Faithful host :=
        hall [chunk] ((prefix_cons_inj chunk).mpr List.nil_prefix)
      have horder : t.PushInOrder host chunk := by
        by_contra hover
        exact (h.push hhost hchunk).2 hover hafter.windows
      obtain ⟨hs', rs', ts', hnext⟩ := (h.push hhost hchunk).1 horder
      refine ⟨hall [] List.nil_prefix, horder, (ih hnext hrest).mp (fun pre hpre => ?_)⟩
      exact hall (chunk :: pre) ((prefix_cons_inj chunk).mpr hpre)
    · rintro ⟨hfaithful, horder, hinOrder⟩ pre hpre
      obtain ⟨hs', rs', ts', hnext⟩ := (h.push hhost hchunk).1 horder
      cases pre with
      | nil => exact hfaithful
      | cons c pre =>
        obtain ⟨rfl, hrestPre⟩ := cons_prefix_cons.mp hpre
        exact (ih hnext hrest).mpr hinOrder pre hrestPre

end

end Push

/-- **The windows are faithful exactly while no chunk overtakes.**  For every sanitizer
that keeps text well formed, all options and every sequence of well-formed chunks: after
every push the head is a prefix of the processed stream, the tail a disjoint suffix of it
and `dump` shows the whole stream when the two make it up, if and only if no batch of the
run has a part that fits the room left in the head after other text has gone past it. -/
theorem faithful_iff_inOrder {host : SinkHost}
    (hhost : ∀ text, WellFormed text → WellFormed (host.sanitizeOutputChunk text))
    (options : OutputSinkOptions) {chunks : List JsString}
    (hchunks : ∀ chunk ∈ chunks, WellFormed chunk) :
    (∀ pre, pre <+: chunks → ((start options).run host pre).Faithful host) ↔
      InOrder host chunks (start options) :=
  (retained_start options).run_faithful_iff hhost hchunks

/-- A host that leaves text as it is. -/
def plainHost : SinkHost := ⟨id, ofNat⟩

/-- Four bytes of head: `é` does not fit after `abc`, and nothing smaller follows. -/
theorem faithful_iff_inOrder_wide :
    ((start { headBytes := 4 }).run plainHost [js "abc", js "é", js "éx"]).Faithful
      plainHost := by
  have hchars : ∀ chunk ∈ [js "abc", js "é", js "éx"], chunk = ofChars (codePoints chunk) := by
    decide
  have hchunks : ∀ chunk ∈ [js "abc", js "é", js "éx"], WellFormed chunk := by
    intro chunk hchunk
    rw [hchars chunk hchunk]
    exact wellFormed_ofChars _
  refine (faithful_iff_inOrder (fun _ h => h) { headBytes := 4 } hchunks).mpr ?_ _ prefix_rfl
  simp only [InOrder, FlushInOrder, PushInOrder, Overtakes]
  decide

/-- After `abc` and `é` the chunk `d` is put before `é`: `dump` shows `abcdé`. -/
theorem small_chunk_overtakes :
    (((start { headBytes := 4 }).run plainHost [js "abc", js "é", js "d"]).sink.dump
        plainHost none).1.output = js "abcdé" ∧
      ((start { headBytes := 4 }).run plainHost [js "abc", js "é", js "d"]).stream = js "abcéd" ∧
      ¬ ((start { headBytes := 4 }).run plainHost [js "abc", js "é", js "d"]).Windows := by
  have hstream : ((start { headBytes := 4 }).run plainHost [js "abc", js "é", js "d"]).stream =
        js "abcéd" := by
    decide
  have hhead : ((start { headBytes := 4 }).run plainHost
      [js "abc", js "é", js "d"]).sink.head = js "abcd" := by
    decide
  refine ⟨by decide, hstream, fun hwindows => ?_⟩
  have := hwindows.head_prefix
  rw [hstream, hhead] at this
  exact absurd this (by decide)

end TracedSink
end GajaeCode
