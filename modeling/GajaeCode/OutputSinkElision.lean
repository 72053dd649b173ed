import GajaeCode.UnpairedSurrogates

/-! # What the output sink elides

`dump` of `packages/coding-agent/src/session/streaming-output.ts` composes its body of
the two windows and, where text between them is elided, a marker.  The windows and the
elided text make up the processed stream in some order, and the counters of the sink
count that stream, so the number of elided bytes is right as long as both windows are
shown.  When the elided text has no line of its own the tail is not shown, although the
count takes it as shown.
-/
namespace GajaeCode
open JsString List

namespace OutputSink
variable {s : OutputSink}

/-- A part of the body: text of the stream, or text that `dump` puts in. -/
inductive Part where
  | stream (text : JsString)
  | inserted (text : JsString)

def Part.text : Part → JsString
  | .stream text => text
  | .inserted text => text

def Part.shownBytes : Part → Nat
  | .stream text => byteLength text
  | .inserted _ => 0

variable (host : SinkHost)

/-- What `dump` composes its body of. -/
def parts (s : OutputSink) : List Part :=
  match (s.body host).elided with
  | some (elidedBytes, elidedLines) =>
    if elidedLines = 0 then [.stream s.head]
    else
      [.stream s.head,
        .inserted (if endsWithNewline s.head then [] else [LF]),
        .inserted (formatMiddleElisionMarker host elidedLines elidedBytes),
        .inserted (if s.buffer.head? = some LF then [] else [LF]),
        .stream s.buffer]
  | none => if 0 < byteLength s.head then [.stream s.head, .stream s.buffer] else [.stream s.buffer]

/-- The bytes of the stream in the body. -/
def shownBytes (s : OutputSink) : Nat := ((s.parts host).map Part.shownBytes).sum

/-! ## The branches of `dump` -/

/-- Text is elided between the windows. -/
def Elides (s : OutputSink) : Prop :=
  0 < byteLength s.head ∧ byteLength s.head + byteLength s.buffer < s.processedBytes

/-- The lines that are in neither window, as `dump` counts them. -/
def linesBetween (s : OutputSink) : Nat :=
  (if s.sawData then s.processedLines + 1 else 0) -
      (countNewlines s.head +
        if 0 < byteLength s.head ∧ endsWithNewline s.head = false then 1 else 0) -
    (if 0 < s.buffer.length then countNewlines s.buffer + 1 else 0)

/-- The bytes that are in neither window, as `dump` counts them. -/
def bytesBetween (s : OutputSink) : Nat :=
  s.processedBytes - byteLength s.head - byteLength s.buffer

theorem body_headOnly (h : s.Elides) (hlines : s.linesBetween = 0) :
    (s.body host).text = s.head ∧ (s.body host).outputBytes = byteLength s.head ∧
      (s.body host).elided = some (s.bytesBetween, 0) := by
  have hbody : s.body host =
      ⟨s.head, byteLength s.head, _, some (s.bytesBetween, s.linesBetween)⟩ :=
    (if_pos h).trans (if_pos hlines)
  rw [hbody, hlines]
  exact ⟨rfl, rfl, rfl⟩

theorem body_marked (h : s.Elides) (hlines : s.linesBetween ≠ 0) :
    (s.body host).text = s.head ++ (if endsWithNewline s.head then [] else [LF]) ++
        formatMiddleElisionMarker host s.linesBetween s.bytesBetween ++
        (if s.buffer.head? = some LF then [] else [LF]) ++ s.buffer ∧
      (s.body host).outputBytes = byteLength s.head +
        byteLength (formatMiddleElisionMarker host s.linesBetween s.bytesBetween) +
        byteLength s.buffer + (if endsWithNewline s.head then [] else [LF]).length +
        (if s.buffer.head? = some LF then [] else [LF]).length ∧
      (s.body host).elided = some (s.bytesBetween, s.linesBetween) := by
  have hbody : s.body host = ⟨_, _, _, _⟩ := (if_pos h).trans (if_neg hlines)
  rw [hbody]
  exact ⟨rfl, rfl, rfl⟩

theorem body_whole (h : ¬ s.Elides) :
    (s.body host).text = (if 0 < byteLength s.head then s.head ++ s.buffer else s.buffer) ∧
      (s.body host).outputBytes =
        (if 0 < byteLength s.head then byteLength s.head + byteLength s.buffer
        else byteLength s.buffer) ∧ (s.body host).elided = none := by
  have hbody : s.body host = _ := if_neg h
  rw [hbody]
  split_ifs <;> exact ⟨rfl, rfl, rfl⟩

theorem flatten_parts (s : OutputSink) :
    ((s.parts host).map Part.text).flatten = (s.body host).text := by
  by_cases h : s.Elides
  · by_cases hlines : s.linesBetween = 0
    · obtain ⟨htext, -, helided⟩ := body_headOnly host h hlines
      simp [parts, helided, htext, Part.text]
    · obtain ⟨htext, -, helided⟩ := body_marked host h hlines
      simp [parts, helided, htext, hlines, Part.text, append_assoc]
  · obtain ⟨htext, -, helided⟩ := body_whole host h
    rw [parts, helided, htext]
    simp only
    split_ifs <;> simp [Part.text]

/-- A character does not begin with the second half of a pair. -/
theorem units_head (c : Char) : ∃ u rest, units c = u :: rest ∧ isLowSurrogate u = false := by
  have hc := toNat_lt_or c
  rw [units]
  split_ifs with hsmall
  · refine ⟨_, _, rfl, ?_⟩
    rw [← Bool.not_eq_true, isLowSurrogate_iff, toNat_ofNat_unit hsmall]
    omega
  · refine ⟨_, _, rfl, ?_⟩
    rw [← Bool.not_eq_true, isLowSurrogate_iff, toNat_ofNat_unit (by omega)]
    omega

theorem byteLength_append_ofChars (s : JsString) (cs : List Char) :
    byteLength (s ++ ofChars cs) = byteLength s + byteSize cs := by
  cases cs with
  | nil => rw [ofChars_nil, append_nil, byteSize_nil, Nat.add_zero]
  | cons c cs =>
    obtain ⟨u, rest, hunits, hlow⟩ := units_head c
    rw [ofChars_cons, hunits, cons_append, byteLength_eq, codePoints_append_cons hlow,
      byteSize_append, ← byteLength_eq, ← cons_append, ← hunits, ← ofChars_cons, codePoints_ofChars]

theorem byteLength_ofChars_append (cs : List Char) (t : JsString) :
    byteLength (ofChars cs ++ t) = byteSize cs + byteLength t := by
  induction cs with
  | nil => rw [ofChars_nil, nil_append, byteSize_nil, Nat.zero_add]
  | cons c cs ih =>
    rw [ofChars_cons, append_assoc, byteLength_eq, codePoints_units_append, byteSize_cons,
      ← byteLength_eq, ih, byteSize_cons, Nat.add_assoc]

theorem byteLength_headSep (b : Prop) [Decidable b] (t : JsString) :
    byteLength ((if b then [] else [LF]) ++ t) =
      (if b then ([] : JsString) else [LF]).length + byteLength t := by
  split_ifs
  · rw [nil_append, length_nil, Nat.zero_add]
  · have h := byteLength_append_LF [] t
    rw [show byteLength [] = 0 from rfl, Nat.zero_add] at h
    exact h

theorem byteLength_tailSep (s : JsString) (b : Prop) [Decidable b] (cs : List Char) :
    byteLength (s ++ ((if b then [] else [LF]) ++ ofChars cs)) =
      byteLength s + ((if b then ([] : JsString) else [LF]).length + byteSize cs) := by
  split_ifs
  · rw [nil_append, byteLength_append_ofChars, length_nil, Nat.zero_add]
  · rw [cons_append, nil_append, byteLength_append_LF, byteLength_ofChars]
    rfl

/-- **The reported size** is that of the body. -/
theorem Holds.outputBytes_eq {hs ts : List Char} (h : s.Holds hs ts) :
    (s.body host).outputBytes = byteLength (s.body host).text := by
  by_cases helides : s.Elides
  · by_cases hlines : s.linesBetween = 0
    · obtain ⟨htext, hbytes, -⟩ := body_headOnly host helides hlines
      rw [htext, hbytes]
    · obtain ⟨htext, hbytes, -⟩ := body_marked host helides hlines
      rw [htext, hbytes, h.head, h.tail, append_assoc, append_assoc, append_assoc,
        byteLength_ofChars_append, byteLength_headSep, byteLength_tailSep, byteLength_ofChars,
        byteLength_ofChars]
      omega
  · obtain ⟨htext, hbytes, -⟩ := body_whole host helides
    rw [htext, hbytes, h.head, h.tail]
    split_ifs
    · rw [byteLength_ofChars_append, byteLength_ofChars, byteLength_ofChars]
    · rfl

/-- The tail is not shown, although the text between the windows is counted as if it
were: both windows hold text, something between them is elided, and of the line feeds of
the stream no more stand there than the one that ends the last line of the head. -/
def HidesTail (s : OutputSink) (stream : JsString) : Prop :=
  s.head ≠ [] ∧ s.buffer ≠ [] ∧
    byteLength s.head + byteLength s.buffer < byteLength stream ∧
    countNewlines stream ≤ countNewlines s.head + countNewlines s.buffer +
      if endsWithNewline s.head then 0 else 1

theorem shownBytes_headOnly (h : s.Elides) (hlines : s.linesBetween = 0) :
    s.shownBytes host = byteLength s.head := by
  obtain ⟨-, -, helided⟩ := body_headOnly host h hlines
  simp [shownBytes, parts, helided, Part.shownBytes]

theorem shownBytes_marked (h : s.Elides) (hlines : s.linesBetween ≠ 0) :
    s.shownBytes host = byteLength s.head + byteLength s.buffer := by
  obtain ⟨-, -, helided⟩ := body_marked host h hlines
  simp [shownBytes, parts, helided, hlines, Part.shownBytes]

end OutputSink

namespace TracedSink
open OutputSink
variable {t : TracedSink}

variable (host : SinkHost)

/-! ## The counters count the stream -/

/-- The stream of a sink in characters: those of the windows and the elided ones, in the
order in which they came.  The counters are those of the stream. -/
structure Counts (t : TracedSink) (hs ms ts vs : List Char) : Prop where
  holds : t.sink.Holds hs ts
  stream : t.stream = ofChars vs
  perm : (hs ++ (ms ++ ts)).Perm vs
  bytes : t.sink.processedBytes = byteSize vs
  newlines : t.sink.processedLines = countNewlines (ofChars vs)
  sawData : vs ≠ [] → t.sink.sawData = true
  pending : WellFormed t.sink.coalesceBuf

theorem counts_start (options : OutputSinkOptions) : (start options).Counts [] [] [] [] :=
  ⟨⟨rfl, rfl, rfl, rfl, rfl⟩, rfl, Perm.refl _, rfl, rfl, fun h => absurd rfl h, trivial⟩

theorem countNewlines_append (s t : JsString) :
    countNewlines (s ++ t) = countNewlines s + countNewlines t := count_append

/-- The windows do not touch the other counters either. -/
theorem pushTail_counters (s : OutputSink) (chunk : JsString) (n : Nat) :
    (s.pushTail chunk n).processedLines = s.processedLines ∧
      (s.pushTail chunk n).sawData = s.sawData := by
  simp only [pushTail, trimTailTo]
  split_ifs <;> exact ⟨rfl, rfl⟩

theorem retain_counters (s : OutputSink) (chunk : JsString) (n : Nat) :
    (s.retain chunk n).processedLines = s.processedLines ∧
      (s.retain chunk n).sawData = s.sawData := by
  simp only [retain]
  split_ifs
  · exact ⟨rfl, rfl⟩
  · exact pushTail_counters _ _ _
  · exact pushTail_counters _ _ _
  · exact pushTail_counters _ _ _

theorem taken_prefix (s : OutputSink) (cs : List Char) : s.taken cs <+: cs := by
  rcases fitHead_cases (s.headLimit - s.headBytes) cs with ⟨hall, -⟩ | ⟨c, rest, hsplit, -⟩
  · exact ⟨[], by rw [append_nil]; exact hall⟩
  · exact ⟨c :: rest, hsplit.symm⟩

section Ingest
variable {t : TracedSink}

variable {host}

theorem ingest_counters (t : TracedSink) {rawChunk : JsString} (hraw : byteLength rawChunk ≠ 0)
    {vs : List Char} (hvs : (t.sink.visible host rawChunk).1 = ofChars vs) :
    (t.ingest host rawChunk).sink.processedLines =
        t.sink.processedLines + countNewlines (ofChars vs) ∧
      (t.ingest host rawChunk).sink.sawData = true := by
  have hne : 0 < rawChunk.length := by
    rw [length_pos_iff]
    rintro rfl
    exact hraw rfl
  have hvisible : ((t.sink.countRaw rawChunk).visible host rawChunk).1 = ofChars vs := by
    rw [← hvs]
    simp only [countRaw, if_pos hne]
    rfl
  have hseen : ∀ column, ({ t.sink.countRaw rawChunk with column }.countVisible
      (ofChars vs)).processedLines = t.sink.processedLines + countNewlines (ofChars vs) ∧
      ({ t.sink.countRaw rawChunk with column }.countVisible (ofChars vs)).sawData = true := by
    intro column
    simp only [countVisible, countRaw, if_pos hne]
    split_ifs with hpos
    · exact ⟨rfl, rfl⟩
    · rw [eq_nil_of_length_eq_zero (Nat.eq_zero_of_not_pos hpos)]
      exact ⟨rfl, rfl⟩
  simp only [ingest, OutputSink.ingest, if_neg hraw, hvisible]
  split_ifs
  · exact hseen _
  · obtain ⟨hlines, hdata⟩ := retain_counters ({ t.sink.countRaw rawChunk with
      column := ((t.sink.countRaw rawChunk).visible host rawChunk).2 }.countVisible (ofChars vs))
      (ofChars vs) (byteLength (ofChars vs))
    exact ⟨hlines.trans (hseen _).1, hdata.trans (hseen _).2⟩

section
variable {hs ms ts vs : List Char} (h : t.Counts hs ms ts vs)
    (hhost : ∀ text, WellFormed text → WellFormed (host.sanitizeOutputChunk text))
include h hhost

/-- **One chunk**: what it adds to the stream is in a window or is elided. -/
theorem Counts.ingest {rawChunk : JsString} (hwf : WellFormed rawChunk) :
    ∃ hs' ms' ts' vs', (t.ingest host rawChunk).Counts hs' ms' ts' vs' := by
  by_cases hraw : byteLength rawChunk = 0
  · obtain ⟨hsink, hstream⟩ : (t.ingest host rawChunk).sink = t.sink.countRaw rawChunk ∧
        (t.ingest host rawChunk).stream = t.stream := ingest_empty t hraw
    refine ⟨hs, ms, ts, vs, ?_, hstream ▸ h.stream, h.perm, ?_, ?_, ?_, ?_⟩
    all_goals rw [hsink]; simp only [countRaw]
    · split_ifs <;>
        exact ⟨h.holds.head, h.holds.headBytes, h.holds.tail, h.holds.tailBytes, h.holds.enabled⟩
    · split_ifs <;> exact h.bytes
    · split_ifs <;> exact h.newlines
    · split_ifs
      · exact fun _ => rfl
      · exact h.sawData
    · split_ifs <;> exact h.pending
  · obtain ⟨ws, hws⟩ := exists_ofChars (wellFormed_visible hhost t.sink hwf)
    obtain ⟨seen, hsink, hstream, hbytes, hholds, -, -, hpending⟩ := ingest_eq t hraw hws
    obtain ⟨hlines, hdata⟩ := ingest_counters t hraw hws
    have hwindows : ∃ ts', (t.ingest host rawChunk).sink.Holds (hs ++ seen.taken ws) ts' ∧
        ts' <:+ ts ++ ws.drop (seen.taken ws).length := by
      rw [hsink]
      split_ifs with hempty
      · obtain rfl := byteSize_eq_zero hempty
        rw [taken, fitHead, append_nil, drop_nil, append_nil]
        exact ⟨ts, hholds hs ts h.holds, suffix_rfl⟩
      · exact retain_holds (hholds hs ts h.holds) ws
    obtain ⟨ts', hholds', front, hfront⟩ := hwindows
    have hfit : seen.taken ws ++ ws.drop (seen.taken ws).length = ws := by
      obtain ⟨rest, hrest⟩ := taken_prefix seen ws
      calc seen.taken ws ++ ws.drop (seen.taken ws).length
          = seen.taken ws ++ (seen.taken ws ++ rest).drop (seen.taken ws).length := by rw [hrest]
        _ = ws := by rw [drop_left, hrest]
    have hsame := retain_sameLimits seen (ofChars ws) (byteSize ws)
    refine ⟨hs ++ seen.taken ws, ms ++ front, ts', vs ++ ws, hholds', ?_, ?_, ?_, ?_,
      fun _ => hdata, ?_⟩
    · rw [hstream, h.stream, ofChars_append]
    · calc hs ++ seen.taken ws ++ (ms ++ front ++ ts')
          = hs ++ (seen.taken ws ++ ((ms ++ ts) ++ ws.drop (seen.taken ws).length)) := by
            simp only [append_assoc, hfront]
        Perm _ (hs ++ ((ms ++ ts) ++ (seen.taken ws ++ ws.drop (seen.taken ws).length))) :=
            (perm_append_comm_assoc _ _ _).append_left hs
        _ = (hs ++ (ms ++ ts)) ++ ws := by simp only [hfit, append_assoc]
        Perm _ (vs ++ ws) := h.perm.append_right ws
    · rw [hsink, byteSize_append, ← h.bytes, ← hbytes]
      split_ifs
      · rfl
      · exact hsame.processedBytes
    · rw [hlines, h.newlines, ofChars_append, countNewlines_append]
    · rw [hsink]
      split_ifs
      · exact hpending ▸ h.pending
      · rw [hsame.coalesceBuf, hpending]
        exact h.pending

/-- **A flush** of the pending batch. -/
theorem Counts.flushCoalesced :
    ∃ hs' ms' ts' vs', (t.flushCoalesced host).Counts hs' ms' ts' vs' := by
  rw [TracedSink.flushCoalesced]
  split_ifs
  · exact ⟨hs, ms, ts, vs, h⟩
  · have hcleared : TracedSink.Counts { t with sink := { t.sink with coalesceBuf := [] } }
        hs ms ts vs :=
      ⟨⟨h.holds.head, h.holds.headBytes, h.holds.tail, h.holds.tailBytes, h.holds.enabled⟩,
        h.stream, h.perm, h.bytes, h.newlines, h.sawData, trivial⟩
    exact hcleared.ingest hhost h.pending

/-- **A push**. -/
theorem Counts.push {chunk : JsString} (hchunk : WellFormed chunk) :
    ∃ hs' ms' ts' vs', (t.push host chunk).Counts hs' ms' ts' vs' := by
  have hjoined : TracedSink.Counts
      { t with sink := { t.sink with coalesceBuf := t.sink.coalesceBuf ++ chunk } } hs ms ts vs :=
    ⟨⟨h.holds.head, h.holds.headBytes, h.holds.tail, h.holds.tailBytes, h.holds.enabled⟩,
      h.stream, h.perm, h.bytes, h.newlines, h.sawData, wellFormed_append h.pending hchunk⟩
  simp only [TracedSink.push]
  split_ifs
  · exact h.ingest hhost hchunk
  · exact hjoined.flushCoalesced hhost
  · exact ⟨hs, ms, ts, vs, hjoined⟩

/-- **A run** of pushes. -/
theorem Counts.run {chunks : List JsString} (hchunks : ∀ chunk ∈ chunks, WellFormed chunk) :
    ∃ hs' ms' ts' vs', (t.run host chunks).Counts hs' ms' ts' vs' := by
  induction chunks generalizing t hs ms ts vs with
  | nil => exact ⟨hs, ms, ts, vs, h⟩
  | cons chunk chunks ih =>
    obtain ⟨hs', ms', ts', vs', hnext⟩ := h.push hhost (hchunks chunk mem_cons_self)
    exact ih hnext (fun c hc => hchunks c (mem_cons_of_mem _ hc))

end

end Ingest

/-! ## The summary -/

/-- The summary accounts for the stream: what is shown and what is reported as elided
are all of it, and the reported size is that of the body. -/
structure Accounts (t : TracedSink) (notice : Option JsString) : Prop where
  elided : ∀ n, (t.sink.dump host notice).1.elidedBytes = some n →
    (t.flushCoalesced host).sink.shownBytes host + n = byteLength (t.flushCoalesced host).stream
  outputBytes : (t.sink.dump host notice).1.outputBytes =
    byteLength (((t.flushCoalesced host).sink.parts host).map Part.text).flatten

section
variable {hs ms ts vs : List Char} (h : t.Counts hs ms ts vs)
include h

theorem Counts.byteLength_stream : byteLength t.stream = t.sink.processedBytes := by
  rw [h.stream, byteLength_ofChars, h.bytes]

theorem Counts.byteLength_pos : (0 < byteLength t.sink.head ↔ t.sink.head ≠ []) ∧
      (0 < byteLength t.sink.buffer ↔ t.sink.buffer ≠ []) := by
  have hpos : ∀ cs : List Char, 0 < byteSize cs ↔ ofChars cs ≠ [] := by
    intro cs
    constructor
    · intro hsize hnil
      rw [ofChars_injective (hnil.trans ofChars_nil.symm)] at hsize
      exact absurd hsize (Nat.lt_irrefl 0)
    · intro hne
      refine Nat.pos_of_ne_zero fun hzero => hne ?_
      rw [byteSize_eq_zero hzero, ofChars_nil]
  rw [h.holds.head, h.holds.tail, byteLength_ofChars, byteLength_ofChars]
  exact ⟨hpos hs, hpos ts⟩

/-- The tail is hidden exactly where it has text and no line is counted before it. -/
theorem Counts.hidesTail_iff (helides : t.sink.Elides) :
    t.sink.HidesTail t.stream ↔ t.sink.buffer ≠ [] ∧ t.sink.linesBetween = 0 := by
  obtain ⟨hhead, hless⟩ := helides
  have hvs : vs ≠ [] := by
    rintro rfl
    rw [h.bytes, byteSize_nil] at hless
    exact absurd hless (Nat.not_lt_zero _)
  have hlines : countNewlines t.stream = t.sink.processedLines := by rw [h.stream, h.newlines]
  rw [HidesTail, h.byteLength_stream, hlines]
  by_cases htail : t.sink.buffer = []
  · exact iff_of_false (fun hhides => hhides.2.1 htail) (fun hhides => hhides.1 htail)
  · have hcount : t.sink.linesBetween = t.sink.processedLines + 1 -
        (countNewlines t.sink.head + if endsWithNewline t.sink.head then 0 else 1) -
          (countNewlines t.sink.buffer + 1) := by
      rw [linesBetween, h.sawData hvs, if_pos rfl, if_pos (length_pos_iff.mpr htail)]
      cases endsWithNewline t.sink.head <;> simp [hhead]
    rw [hcount]
    constructor
    · rintro ⟨-, -, -, hle⟩
      exact ⟨htail, by omega⟩
    · rintro ⟨-, hzero⟩
      exact ⟨h.byteLength_pos.1.mp hhead, htail, hless, by omega⟩

/-- **A flushed state** accounts for its stream unless its tail is hidden. -/
theorem Counts.shown_iff : (∀ n, (t.sink.body host).elided.map Prod.fst = some n →
        t.sink.shownBytes host + n = byteLength t.stream) ↔ ¬ t.sink.HidesTail t.stream := by
  rw [h.byteLength_stream]
  by_cases helides : t.sink.Elides
  · rw [h.hidesTail_iff helides]
    have hless := helides.2
    have hpos := h.byteLength_pos.2
    by_cases hlines : t.sink.linesBetween = 0
    · -- only the head is shown
      obtain ⟨-, -, helided⟩ := body_headOnly host helides hlines
      rw [helided, shownBytes_headOnly host helides hlines]
      constructor
      · rintro hall ⟨htail, -⟩
        have heq := hall _ rfl
        have := hpos.mpr htail
        rw [bytesBetween] at heq
        omega
      · rintro hno n hn
        obtain rfl := some.inj hn
        have hzero : ¬ 0 < byteLength t.sink.buffer := fun htail => hno ⟨hpos.mp htail, hlines⟩
        rw [bytesBetween]
        omega
    · obtain ⟨-, -, helided⟩ := body_marked host helides hlines
      rw [helided, shownBytes_marked host helides hlines]
      refine iff_of_true ?_ (fun hhides => hlines hhides.2)
      intro n hn
      obtain rfl := some.inj hn
      rw [bytesBetween]
      omega
  · obtain ⟨-, -, helided⟩ := body_whole host helides
    rw [helided]
    refine iff_of_true (fun n hn => (nomatch hn)) ?_
    rintro ⟨hhead, -, hless, -⟩
    rw [h.byteLength_stream] at hless
    exact helides ⟨h.byteLength_pos.1.mpr hhead, hless⟩

end

end TracedSink
end GajaeCode
