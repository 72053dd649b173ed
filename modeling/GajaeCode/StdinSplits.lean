import GajaeCode.StdinBuffer

/-! # Input that is cut into chunks

What decides about a cut is where the start of a paste stands.  Cut within it, or before it, the
marker is only found if the sequence it stands in waits until it is complete; and a malformed
mouse report is dropped, unless the start of a paste is in the buffer with it.  Input in which
neither happens is decoded alike however it is cut (`splitsAlike_iff`).
-/
namespace GajaeCode
open JsString List Option

namespace StdinBuffer
variable {before front text back input q : JsString}

theorem start_ne_nil : BRACKETED_PASTE_START ≠ [] := cons_ne_nil _ _

theorem end_ne_nil : BRACKETED_PASTE_END ≠ [] := cons_ne_nil _ _

/-- What remains is shorter, and the call for it starts afresh. -/
theorem finishPaste_remaining {st : StdinBuffer} (hbuffer : st.buffer = [])
    (h : (finishPaste st).remaining ≠ []) : (finishPaste st).state = initial ∧
      (finishPaste st).remaining.length < st.pasteBuffer.length := by
  unfold finishPaste at h ⊢
  cases hsplit : splitFirst BRACKETED_PASTE_END st.pasteBuffer with
  | none =>
    rw [hsplit] at h
    exact absurd rfl h
  | some out =>
    obtain ⟨content, remaining⟩ := out
    obtain ⟨htext, -⟩ := (splitFirst_eq_some end_ne_nil).mp hsplit
    refine ⟨by simp [hbuffer, initial], ?_⟩
    have hpos := length_pos_of_ne_nil end_ne_nil
    rw [htext, length_append, length_append]
    dsimp only
    omega

section
variable {st : StdinBuffer} {data : JsString} (hdata : ¬ (data = [] ∧ st.buffer = []))
include hdata

theorem processOnce_paste (hpaste : st.pasteMode = true) : st.processOnce data =
      finishPaste { st with
        buffer := [], pasteBuffer := st.pasteBuffer ++ (st.buffer ++ data) } := by
  unfold processOnce
  rw [if_neg hdata, if_pos hpaste]

theorem processOnce_start {rest : JsString} (hpaste : st.pasteMode = false)
    (h : splitFirst BRACKETED_PASTE_START (st.buffer ++ data) = some (before, rest)) :
    st.processOnce data =
      let paste := finishPaste ⟨[], true, rest, none⟩
      { paste with
        events := (emitAll st.pendingKittyPrintableCodepoint (sequencesBefore before)).2 ++
          paste.events } := by
  unfold processOnce
  rw [if_neg hdata, if_neg (by simp [hpaste])]
  dsimp only
  rw [h]

theorem processOnce_sequences (hpaste : st.pasteMode = false)
    (h : splitFirst BRACKETED_PASTE_START (st.buffer ++ data) = none) :
    st.processOnce data =
      let result := extractCompleteSequences (st.buffer ++ data)
      let emitted := emitAll st.pendingKittyPrintableCodepoint
        (result.1.filter fun sequence => !isMalformedReport sequence)
      ⟨{ st with buffer := result.2, pendingKittyPrintableCodepoint := emitted.1 },
        emitted.2, []⟩ := by
  unfold processOnce
  rw [if_neg hdata, if_neg (by simp [hpaste])]
  dsimp only
  rw [h]

end

theorem processOnce_remaining {st : StdinBuffer} {data : JsString}
    (h : (st.processOnce data).remaining ≠ []) :
    (st.processOnce data).state = initial ∧ (st.processOnce data).remaining.length <
      st.pasteBuffer.length + st.buffer.length + data.length := by
  by_cases hdata : data = [] ∧ st.buffer = []
  · refine absurd ?_ h
    unfold processOnce
    rw [if_pos hdata]
  by_cases hpaste : st.pasteMode = true
  · rw [processOnce_paste hdata hpaste] at h ⊢
    obtain ⟨hstate, hlength⟩ := finishPaste_remaining rfl h
    refine ⟨hstate, ?_⟩
    simpa [Nat.add_assoc] using hlength
  have hwaiting : st.pasteMode = false := Bool.not_eq_true _ ▸ hpaste
  cases hsplit : splitFirst BRACKETED_PASTE_START (st.buffer ++ data) with
  | none =>
    rw [processOnce_sequences hdata hwaiting hsplit] at h
    exact absurd rfl h
  | some out =>
    obtain ⟨before, rest⟩ := out
    rw [processOnce_start hdata hwaiting hsplit] at h ⊢
    obtain ⟨hstate, hlength⟩ := finishPaste_remaining rfl h
    refine ⟨hstate, hlength.trans_le ?_⟩
    obtain ⟨htext, -⟩ := (splitFirst_eq_some start_ne_nil).mp hsplit
    have htotal := congrArg length htext
    simp only [length_append] at htotal
    dsimp only
    omega

theorem processFrom_eq {fuel : Nat} {st : StdinBuffer} {data : JsString}
    (h : st.pasteBuffer.length + st.buffer.length + data.length < fuel) :
    processFrom fuel st data = st.process data := by
  induction hn : st.pasteBuffer.length + st.buffer.length + data.length
    using Nat.strong_induction_on generalizing fuel st data with
  | _ n ih =>
    obtain ⟨fuel, rfl⟩ : ∃ f, fuel = f + 1 := ⟨fuel - 1, by omega⟩
    rw [process, processFrom, processFrom]
    by_cases hremaining : (st.processOnce data).remaining = []
    · rw [if_pos hremaining, if_pos hremaining]
    · obtain ⟨hstate, hlength⟩ := processOnce_remaining hremaining
      have hmeasure : initial.pasteBuffer.length + initial.buffer.length +
          (st.processOnce data).remaining.length = (st.processOnce data).remaining.length := by
        simp [initial]
      have heq : ∀ f, (st.processOnce data).remaining.length < f →
          processFrom f initial (st.processOnce data).remaining =
            initial.process (st.processOnce data).remaining := fun f hf =>
        ih _ (hn ▸ hlength) (hmeasure.trans_lt hf) hmeasure
      rw [if_neg hremaining, if_neg hremaining, hstate, heq fuel (by omega), heq _ hlength]

/-- **`process`**: one round, and the call for what follows a paste. -/
theorem process_eq (st : StdinBuffer) (data : JsString) : st.process data =
      let out := st.processOnce data
      if out.remaining = [] then (out.state, out.events)
      else
        let rest := initial.process out.remaining
        (rest.1, out.events ++ rest.2) := by
  rw [process, processFrom]
  by_cases hremaining : (st.processOnce data).remaining = []
  · rw [if_pos hremaining]
    exact (if_pos hremaining).symm
  · obtain ⟨hstate, hlength⟩ := processOnce_remaining hremaining
    have heq : processFrom (st.pasteBuffer.length + st.buffer.length + data.length) initial
        (st.processOnce data).remaining = initial.process (st.processOnce data).remaining :=
      processFrom_eq (by simpa [initial] using hlength)
    rw [if_neg hremaining, hstate, heq]
    exact (if_neg hremaining).symm

/-- Outside a paste, with what is pending. -/
def waiting (buffer : JsString) (pending : Option Nat) : StdinBuffer := ⟨buffer, false, [], pending⟩

/-- In a paste, with what has been pasted so far. -/
def pasting (content : JsString) : StdinBuffer := ⟨[], true, content, none⟩

/-- What happens with the input from the start of a paste on. -/
def pasteRest (rest : JsString) : StdinBuffer × List StdinEvent :=
  match splitFirst BRACKETED_PASTE_END rest with
  | none => (pasting rest, [])
  | some (content, remaining) =>
    if remaining = [] then (initial, [.paste content])
    else
      let out := initial.process remaining
      (out.1, .paste content :: out.2)

theorem process_of_finishPaste {st : StdinBuffer} {data rest : JsString}
    {events : List StdinEvent} (h : st.processOnce data =
      let paste := finishPaste (pasting rest)
      { paste with events := events ++ paste.events }) :
    st.process data = ((pasteRest rest).1, events ++ (pasteRest rest).2) := by
  rw [process_eq, h]
  unfold finishPaste pasteRest
  dsimp only [pasting]
  cases hsplit : splitFirst BRACKETED_PASTE_END rest with
  | none => rfl
  | some out =>
    obtain ⟨content, remaining⟩ := out
    dsimp only
    by_cases hremaining : remaining = []
    · rw [if_pos hremaining, if_pos hremaining]
      rfl
    · rw [if_neg hremaining, if_neg hremaining, append_assoc]
      rfl

theorem process_pasting {data : JsString} (hdata : data ≠ []) (content : JsString) :
    (pasting content).process data = pasteRest (content ++ data) := by
  have honce : (pasting content).processOnce data =
      let paste := finishPaste (pasting (content ++ data))
      { paste with events := [] ++ paste.events } :=
    processOnce_paste (fun hempty => hdata hempty.1) rfl
  exact process_of_finishPaste honce

theorem process_start {buffer data before rest : JsString} (hdata : data ≠ [])
    (h : splitFirst BRACKETED_PASTE_START (buffer ++ data) = some (before, rest))
    (pending : Option Nat) : (waiting buffer pending).process data =
      ((pasteRest rest).1, (emitAll pending (sequencesBefore before)).2 ++ (pasteRest rest).2) :=
  process_of_finishPaste (processOnce_start (fun hempty => hdata hempty.1) rfl h)

theorem process_sequences {buffer data : JsString} (hdata : data ≠ [])
    (h : splitFirst BRACKETED_PASTE_START (buffer ++ data) = none) (pending : Option Nat) :
    (waiting buffer pending).process data =
      let emitted := emitAll pending ((sequences.run (buffer ++ data)).1.filter fun sequence =>
        !isMalformedReport sequence)
      (waiting (sequences.run (buffer ++ data)).2 emitted.1, emitted.2) := by
  rw [process_eq, processOnce_sequences (fun hempty => hdata hempty.1) rfl h]
  rfl

/-- The marker but for its last unit is not consumed with what stands before it. -/
def MarkerKept (before : JsString) : Prop :=
  BRACKETED_PASTE_START.dropLast <:+
    (extractCompleteSequences (before ++ BRACKETED_PASTE_START.dropLast)).2

/-- No malformed mouse report stands before the marker. -/
def NoReport (before : JsString) : Prop :=
  ∀ sequence ∈ (extractCompleteSequences before).1, isMalformedReport sequence = false

/-- Each start of a paste stands apart from the input since the end of the last one. -/
inductive MarkersApart : JsString → Prop
  | plain {input : JsString} (none : splitFirst BRACKETED_PASTE_START input = none) :
    MarkersApart input
  | unfinished {input before rest : JsString}
    (start : splitFirst BRACKETED_PASTE_START input = some (before, rest))
    (kept : MarkerKept before) (noReport : NoReport before)
    (none : splitFirst BRACKETED_PASTE_END rest = none) : MarkersApart input
  | finished {input before rest content remaining : JsString}
    (start : splitFirst BRACKETED_PASTE_START input = some (before, rest))
    (kept : MarkerKept before) (noReport : NoReport before)
    (finish : splitFirst BRACKETED_PASTE_END rest = some (content, remaining))
    (apart : MarkersApart remaining) : MarkersApart input

theorem MarkersApart.of_append {input : JsString} (h : MarkersApart input) {front back : JsString}
    (hinput : input = front ++ back) : MarkersApart front := by
  induction h generalizing front with
  | plain hnone =>
    refine .plain (splitFirst_eq_none.mpr fun hoccurs => splitFirst_eq_none.mp hnone ?_)
    rw [hinput]
    exact hoccurs.trans (prefix_append _ _).isInfix
  | unfinished hstart hkept hreport hnone =>
    subst hinput
    rcases splitFirst_front start_ne_nil hstart with hfront | ⟨rest', hfront, rfl⟩
    · exact .plain hfront
    · refine .unfinished hfront hkept hreport (splitFirst_eq_none.mpr fun hoccurs =>
        splitFirst_eq_none.mp hnone ?_)
      exact hoccurs.trans (prefix_append _ _).isInfix
  | finished hstart hkept hreport hfinish _ ih =>
    subst hinput
    rcases splitFirst_front start_ne_nil hstart with hfront | ⟨rest', hfront, rfl⟩
    · exact .plain hfront
    · rcases splitFirst_front end_ne_nil hfinish with hend | ⟨remaining', hend, rfl⟩
      · exact .unfinished hfront hkept hreport hend
      · exact .finished hfront hkept hreport hend (ih rfl)

theorem emitAll_append (pending : Option Nat) (front back : List JsString) :
    emitAll pending (front ++ back) =
      let out := emitAll pending front
      let out' := emitAll out.1 back
      (out'.1, out.2 ++ out'.2) := by
  induction front generalizing pending with
  | nil => rfl
  | cons sequence front ih =>
    rw [cons_append, emitAll, ih, emitAll]
    simp only [append_assoc]

theorem sequencesBefore_append (front back : JsString) : sequencesBefore (front ++ back) =
      (sequences.run front).1 ++ sequencesBefore ((sequences.run front).2 ++ back) := by
  unfold sequencesBefore extractCompleteSequences
  rw [Tokenizer.run_append]
  simp only [append_assoc]

theorem sequencesBefore_pending (h : nextSequence text = none) :
    sequencesBefore text = if text = [] then [] else [text] := by
  unfold sequencesBefore extractCompleteSequences
  rw [Tokenizer.run_none (t := sequences) h]
  rfl

theorem filter_of_noReport (h : NoReport before) {qs : List JsString}
    (hqs : ∀ q ∈ qs, q ∈ (sequences.run before).1) :
    qs.filter (fun sequence => !isMalformedReport sequence) = qs :=
  filter_eq_self.mpr fun q hq => by rw [h q (hqs q hq)]; rfl

/-- What is left in the buffer is the end of what was there. -/
theorem pending_suffix (text : JsString) : (sequences.run text).2 <:+ text :=
  ⟨_, Tokenizer.flatten_run text⟩

theorem prefix_of_isMalformedReport (h : isMalformedReport q = true) :
    isSgrMousePrefix q = true := by
  rw [isMalformedReport, Bool.and_eq_true] at h
  exact h.1

/-- What `nextSequence` says of a text that begins like a mouse report. -/
theorem nextSequence_report (h : isSgrMousePrefix text = true) : nextSequence text =
      (sequenceEnd text text.length 1).map fun n => (text.take n, text.drop n) := by
  obtain ⟨rest, rfl⟩ := List.isPrefixOf_iff_prefix.mp h
  have hmalformed : isMalformedMeta (ESC :: js "[<" ++ rest) = false := rfl
  rw [nextSequence_escape rfl, hmalformed]
  rfl

theorem isSgrMousePrefix_append (h : isSgrMousePrefix text = true) (more : JsString) :
    isSgrMousePrefix (text ++ more) = true :=
  List.isPrefixOf_iff_prefix.mpr ((List.isPrefixOf_iff_prefix.mp h).trans (prefix_append _ _))

/-- A text that waits and is taken as it is when more follows is no mouse report. -/
theorem not_report_of_lookahead {more : JsString} (hnone : nextSequence text = none)
    (h : nextSequence (text ++ more) = some (text, more)) : isMalformedReport text = false := by
  by_contra hreport
  have hbegins := prefix_of_isMalformedReport (Bool.not_eq_false _ ▸ hreport)
  rw [nextSequence_report hbegins, map_eq_none_iff, sequenceEnd_eq_none] at hnone
  rw [nextSequence_report (isSgrMousePrefix_append hbegins more)] at h
  obtain ⟨n, hend, heq⟩ := map_eq_some_iff.mp h
  obtain ⟨htake, -⟩ := Prod.mk.inj heq
  obtain ⟨hmin, hle, hcomplete, -⟩ := (sequenceEnd_eq_some (by omega)).mp hend
  have hlength : n = text.length := by
    rw [← congrArg length htake, length_take, Nat.min_eq_left hle]
  refine hcomplete ?_
  rw [htake]
  simpa using hnone text.length (hlength ▸ hmin) le_rfl

theorem nextSequence_marker (hmarker : BRACKETED_PASTE_START = front ++ back) (hback : back ≠ []) :
    nextSequence front = none := by
  have hall : ∀ n < BRACKETED_PASTE_START.length,
      nextSequence (BRACKETED_PASTE_START.take n) = none := by decide
  have hpos := length_pos_of_ne_nil hback
  have hfront : BRACKETED_PASTE_START.take front.length = front := by
    rw [hmarker, take_left]
  rw [← hfront]
  refine hall front.length ?_
  rw [hmarker, length_append]
  omega

theorem sequencesBefore_eq (before : JsString) : sequencesBefore before =
      (sequences.run before).1 ++ sequencesBefore (sequences.run before).2 := by
  have happend := sequencesBefore_append before []
  rwa [append_nil, append_nil] at happend

theorem nextSequence_pending (before : JsString) : nextSequence (sequences.run before).2 = none :=
  Tokenizer.next_pending (t := sequences) before

/-- Cut within a marker that is kept, the input before it gives the sequences it gives uncut. -/
theorem MarkerKept.cut (hkept : MarkerKept before) (hreport : NoReport before)
    (hmarker : BRACKETED_PASTE_START = front ++ back) (hback : back ≠ []) :
    ∃ text, (sequences.run (before ++ front)).2 = text ++ front ∧
      (sequences.run (before ++ front)).1 ++ sequencesBefore text = sequencesBefore before ∧
      ∀ q ∈ (sequences.run (before ++ front)).1, isMalformedReport q = false := by
  have hpending := nextSequence_pending before
  rw [sequencesBefore_eq before, Tokenizer.run_append]
  unfold NoReport extractCompleteSequences at hreport
  unfold MarkerKept extractCompleteSequences at hkept
  rw [Tokenizer.run_append] at hkept
  generalize (sequences.run before).1 = taken at hreport ⊢
  generalize (sequences.run before).2 = pending at hpending hkept ⊢
  rcases Tokenizer.next_append (t := sequences) hpending front with hnone | ⟨f, f', rfl, hnext⟩
  · rw [Tokenizer.run_none (t := sequences) hnone]
    refine ⟨pending, rfl, ?_, fun q hq => ?_⟩
    · rw [append_nil]
    · rw [append_nil] at hq
      exact hreport q hq
  · -- the sequence taken ends where the marker begins
    have hf : f = [] := by
      have hcut : BRACKETED_PASTE_START.dropLast = f ++ f' ++ back.dropLast := by
        rw [hmarker, dropLast_append_of_ne_nil hback]
      have hmore := nextSequence_stable _ _ _ hnext back.dropLast
      rw [hcut, ← append_assoc pending, Tokenizer.run_some (t := sequences) hmore] at hkept
      have hle := (hkept.trans (pending_suffix (f' ++ back.dropLast))).length_le
      rw [length_append, length_append, length_append] at hle
      exact length_eq_zero_iff.mp (by omega)
    rw [hf, nil_append] at hmarker hnext ⊢
    rw [append_nil] at hnext
    have hwaits := nextSequence_marker hmarker hback
    rw [Tokenizer.run_some (t := sequences) hnext, Tokenizer.run_none (t := sequences) hwaits]
    have hne : pending ≠ [] := (nextSequence_split _ _ _ hnext).1
    refine ⟨[], rfl, ?_, fun q hq => ?_⟩
    · rw [sequencesBefore_pending hpending, if_neg hne, sequencesBefore_pending rfl, if_pos rfl,
        append_nil]
    · rcases mem_append.mp hq with hq | hq
      · exact hreport q hq
      · rw [mem_singleton.mp hq]
        exact not_report_of_lookahead hpending hnext

/-! ## Input whose markers stand apart -/

/-- Two chunks give what they give as one. -/
def Merges (front back : JsString) : Prop :=
  ((initial.process front).1.process back).1 = (initial.process (front ++ back)).1 ∧
    (initial.process front).2 ++ ((initial.process front).1.process back).2 =
      (initial.process (front ++ back)).2

/-- What is pending at a cut before the end of the marker, and what is taken before it. -/
theorem cut_before {rest : JsString}
    (hinput : front ++ back = before ++ (BRACKETED_PASTE_START ++ rest))
    (hshort : front.length < before.length + BRACKETED_PASTE_START.length)
    (hkept : MarkerKept before) (hreport : NoReport before) :
    ∃ text, (sequences.run front).2 ++ back = text ++ (BRACKETED_PASTE_START ++ rest) ∧
      (sequences.run front).1 ++ sequencesBefore text = sequencesBefore before ∧
      ∀ q ∈ (sequences.run front).1, isMalformedReport q = false := by
  by_cases hlength : front.length ≤ before.length
  · -- the cut is before the marker
    obtain ⟨between, rfl⟩ : front <+: before :=
      prefix_of_prefix_length_le ⟨back, hinput⟩ (prefix_append _ _) hlength
    rw [append_assoc] at hinput
    have hback := append_cancel_left hinput
    refine ⟨(sequences.run front).2 ++ between, ?_, (sequencesBefore_append front between).symm,
      fun q hq => hreport q ?_⟩
    · rw [hback, append_assoc]
    · unfold extractCompleteSequences
      rw [Tokenizer.run_append]
      exact mem_append_left _ hq
  · -- the cut is in the marker
    obtain ⟨first, rfl⟩ : before <+: front :=
      prefix_of_prefix_length_le ⟨_, hinput.symm⟩ (prefix_append _ _) (by omega)
    rw [append_assoc] at hinput
    have hrest := append_cancel_left hinput
    obtain ⟨second, hmarker⟩ : first <+: BRACKETED_PASTE_START :=
      prefix_of_prefix_length_le ⟨back, hrest⟩ (prefix_append _ _) (by
        rw [length_append] at hshort
        omega)
    have hsecond : second ≠ [] := by
      rintro rfl
      rw [append_nil] at hmarker
      rw [length_append, hmarker] at hshort
      exact Nat.lt_irrefl _ hshort
    obtain ⟨text, hpending, htaken, hnone⟩ := hkept.cut hreport hmarker.symm hsecond
    refine ⟨text, ?_, htaken, hnone⟩
    rw [hpending, ← hrest, append_assoc]

/-- What is emitted around a cut before the end of the first start of a paste. -/
theorem process_cut {between rest : JsString} (hfront : front ≠ []) (hback : back ≠ [])
    (hnone : splitFirst BRACKETED_PASTE_START front = none)
    (hstart : splitFirst BRACKETED_PASTE_START (front ++ back) = some (before, rest))
    (hpending : (sequences.run front).2 ++ back = between ++ (BRACKETED_PASTE_START ++ rest)) :
    let emitted := emitAll none ((sequences.run front).1.filter fun q => !isMalformedReport q)
    (initial.process front).2 = emitted.2 ∧ (initial.process front).1.process back =
      ((pasteRest rest).1,
        (emitAll emitted.1 (sequencesBefore between)).2 ++ (pasteRest rest).2) := by
  have hinput := ((splitFirst_eq_some start_ne_nil).mp hstart).1
  have hflatten : (sequences.run front).1.flatten ++ (sequences.run front).2 = front :=
    Tokenizer.flatten_run (t := sequences) front
  have hbefore : before = (sequences.run front).1.flatten ++ between := by
    have hsplit : before ++ (BRACKETED_PASTE_START ++ rest) =
        ((sequences.run front).1.flatten ++ between) ++ (BRACKETED_PASTE_START ++ rest) := by
      rw [← hinput, append_assoc, ← hpending, ← append_assoc, hflatten]
    exact append_cancel_right hsplit
  have hstart' : splitFirst BRACKETED_PASTE_START ((sequences.run front).2 ++ back) =
      some (between, rest) := by
    refine @splitFirst_drop _ _ _ start_ne_nil (sequences.run front).1.flatten _ _ _ ?_
    rw [← append_assoc, hflatten, hstart, hbefore]
  have hfirst : initial.process front = _ := @process_sequences [] front hfront hnone none
  rw [nil_append] at hfirst
  rw [hfirst]
  exact ⟨rfl, process_start hback hstart' _⟩

/-- A cut before the end of the first start of a paste. -/
theorem merges_before {rest : JsString} (hfront : front ≠ []) (hback : back ≠ [])
    (hstart : splitFirst BRACKETED_PASTE_START (front ++ back) = some (before, rest))
    (hnone : splitFirst BRACKETED_PASTE_START front = none) (hkept : MarkerKept before)
    (hreport : NoReport before) : Merges front back := by
  have hinput := ((splitFirst_eq_some start_ne_nil).mp hstart).1
  obtain ⟨text, hpending, htaken, hreports⟩ := cut_before hinput
    (length_lt_of_splitFirst start_ne_nil hnone hstart) hkept hreport
  obtain ⟨hfirst, hsecond⟩ := process_cut hfront hback hnone hstart hpending
  have hwhole : initial.process (front ++ back) = _ :=
    @process_start [] (front ++ back) before rest (by simp [hfront]) hstart none
  have hfilter := filter_eq_self.mpr fun q hq =>
    (show (!isMalformedReport q) = true by rw [hreports q hq]; rfl)
  rw [hfilter] at hfirst hsecond
  unfold Merges
  rw [hfirst, hwhole, hsecond, ← htaken, emitAll_append]
  simp only [append_assoc, and_self]

theorem pasteRest_append {rest : JsString} (hback : back ≠ [])
    (h : ∀ content remaining, splitFirst BRACKETED_PASTE_END rest = some (content, remaining) →
      remaining ≠ [] → Merges remaining back) :
    ((pasteRest rest).1.process back).1 = (pasteRest (rest ++ back)).1 ∧
      (pasteRest rest).2 ++ ((pasteRest rest).1.process back).2 = (pasteRest (rest ++ back)).2 := by
  cases hend : splitFirst BRACKETED_PASTE_END rest with
  | none =>
    have hpaste : pasteRest rest = (pasting rest, []) := by rw [pasteRest, hend]
    rw [hpaste, process_pasting hback]
    exact ⟨rfl, rfl⟩
  | some out =>
    obtain ⟨content, remaining⟩ := out
    have hwhole : pasteRest (rest ++ back) = ((initial.process (remaining ++ back)).1,
        .paste content :: (initial.process (remaining ++ back)).2) := by
      rw [pasteRest, splitFirst_append end_ne_nil hend back]
      exact if_neg (by simp [hback])
    rw [hwhole]
    by_cases hremaining : remaining = []
    · have hpaste : pasteRest rest = (initial, [.paste content]) := by
        rw [pasteRest, hend]
        exact if_pos hremaining
      rw [hpaste, hremaining]
      exact ⟨rfl, rfl⟩
    · have hpaste : pasteRest rest = ((initial.process remaining).1,
          .paste content :: (initial.process remaining).2) := by
        rw [pasteRest, hend]
        exact if_neg hremaining
      obtain ⟨hstate, hevents⟩ := h content remaining hend hremaining
      rw [hpaste]
      exact ⟨hstate, congrArg _ hevents⟩

theorem merges_after {rest : JsString} (hfront : front ≠ []) (hback : back ≠ [])
    (hstart : splitFirst BRACKETED_PASTE_START front = some (before, rest))
    (h : ∀ content remaining, splitFirst BRACKETED_PASTE_END rest = some (content, remaining) →
      remaining ≠ [] → Merges remaining back) : Merges front back := by
  have hfirst : initial.process front = _ := @process_start [] front before rest hfront hstart none
  have hwhole : initial.process (front ++ back) = _ :=
    @process_start [] (front ++ back) before (rest ++ back) (by simp [hfront])
      (splitFirst_append start_ne_nil hstart back) none
  obtain ⟨hstate, hevents⟩ := pasteRest_append hback h
  unfold Merges
  rw [hfirst, hwhole, ← hevents, ← hstate]
  exact ⟨rfl, append_assoc _ _ _⟩

theorem merges_plain (hfront : front ≠ []) (hback : back ≠ [])
    (hnone : splitFirst BRACKETED_PASTE_START (front ++ back) = none) : Merges front back := by
  have habsent := splitFirst_eq_none.mp hnone
  have hnone' : splitFirst BRACKETED_PASTE_START front = none := splitFirst_eq_none.mpr
    fun hoccurs => habsent (hoccurs.trans (prefix_append _ _).isInfix)
  have hpending : splitFirst BRACKETED_PASTE_START ((sequences.run front).2 ++ back) = none := by
    refine splitFirst_eq_none.mpr fun hoccurs => habsent (hoccurs.trans ?_)
    obtain ⟨taken, htaken⟩ := pending_suffix front
    refine ⟨taken, [], ?_⟩
    rw [append_nil, ← append_assoc, htaken]
  have hfirst : initial.process front = _ := @process_sequences [] front hfront hnone' none
  have hwhole : initial.process (front ++ back) = _ :=
    @process_sequences [] (front ++ back) (by simp [hfront]) hnone none
  have hsecond := fun pending => process_sequences hback hpending pending
  rw [nil_append] at hfirst hwhole
  unfold Merges
  rw [hfirst, hwhole, hsecond, Tokenizer.run_append front back, filter_append, emitAll_append]
  exact ⟨rfl, rfl⟩

/-- **Where the markers stand apart, a cut does not matter.** -/
theorem merges_of_markersApart (h : MarkersApart input) (hinput : input = front ++ back)
    (hfront : front ≠ []) (hback : back ≠ []) : Merges front back := by
  induction h generalizing front with
  | plain hnone => exact merges_plain hfront hback (hinput ▸ hnone)
  | unfinished hstart hkept hreport hnone =>
    subst hinput
    rcases splitFirst_front start_ne_nil hstart with hfirst | ⟨rest', hfirst, rfl⟩
    · exact merges_before hfront hback hstart hfirst hkept hreport
    · refine merges_after hfront hback hfirst fun content remaining hend _ => ?_
      rw [splitFirst_append end_ne_nil hend back] at hnone
      cases hnone
  | finished hstart hkept hreport hfinish _ ih =>
    subst hinput
    rcases splitFirst_front start_ne_nil hstart with hfirst | ⟨rest', hfirst, rfl⟩
    · exact merges_before hfront hback hstart hfirst hkept hreport
    · refine merges_after hfront hback hfirst fun content remaining hend hremaining => ?_
      rw [splitFirst_append end_ne_nil hend back] at hfinish
      obtain ⟨-, rfl⟩ := Prod.mk.inj (some.inj hfinish)
      exact ih rfl hremaining

theorem feed_of_markersApart {chunks : List JsString} (hfront : front ≠ [])
    (hchunks : ∀ chunk ∈ chunks, chunk ≠ []) (h : MarkersApart (front ++ chunks.flatten)) :
    feed initial (front :: chunks) = initial.process (front ++ chunks.flatten) := by
  induction chunks generalizing front with
  | nil =>
    simp only [feed, flatten_nil, append_nil]
  | cons chunk chunks ih =>
    have hchunk := hchunks chunk mem_cons_self
    rw [flatten_cons, ← append_assoc] at h ⊢
    rw [← ih (by simp [hfront]) (fun c hc => hchunks c (mem_cons_of_mem _ hc)) h]
    obtain ⟨hstate, hevents⟩ := merges_of_markersApart (h.of_append rfl) rfl hfront hchunk
    simp only [feed, ← hstate, ← hevents, append_assoc]

/-! ## Input with a report before a marker -/

/-- A mouse report, well formed or not, is no single character. -/
theorem singleCodePoint_report (h : isSgrMousePrefix q = true) : singleCodePoint q = none := by
  obtain ⟨rest, rfl⟩ := List.isPrefixOf_iff_prefix.mp h
  rfl

theorem parse_report (h : isSgrMousePrefix q = true) :
    parseUnmodifiedKittyPrintableCodepoint q = none := by
  obtain ⟨rest, rfl⟩ := List.isPrefixOf_iff_prefix.mp h
  rfl

theorem parse_single (h : singleCodePoint q ≠ none) :
    parseUnmodifiedKittyPrintableCodepoint q = none := by
  match q with
  | [] => rfl
  | [u] => simp [parseUnmodifiedKittyPrintableCodepoint, kittyCodepoint?, js]
  | [u, v] =>
    by_cases hcsi : (ESC :: js "[").isPrefixOf [u, v] = true
    · simp [parseUnmodifiedKittyPrintableCodepoint, kittyCodepoint?, digits?]
    · simp only [parseUnmodifiedKittyPrintableCodepoint, kittyCodepoint?, if_neg hcsi,
        bind_none]
  | _ :: _ :: _ :: _ => exact absurd rfl h

theorem emitDataSequence_cases (pending : Option Nat) (q : JsString) :
    (singleCodePoint q ≠ none ∧ singleCodePoint q = pending ∧
        emitDataSequence pending q = (none, [])) ∨
      emitDataSequence pending q = (parseUnmodifiedKittyPrintableCodepoint q, [.data q]) := by
  unfold emitDataSequence
  by_cases h : singleCodePoint q ≠ none ∧ singleCodePoint q = pending
  · exact .inl ⟨h.1, h.2, if_pos h⟩
  · exact .inr (if_neg h)

/-- Where less is pending, not less is emitted, and less is pending after it. -/
theorem emitDataSequence_le {p p' : Option Nat} (h : p' = p ∨ p' = none) (q : JsString) :
    ((emitDataSequence p' q).1 = (emitDataSequence p q).1 ∨ (emitDataSequence p' q).1 = none) ∧
      (emitDataSequence p q).2.length ≤ (emitDataSequence p' q).2.length := by
  rcases h with rfl | rfl
  · exact ⟨.inl rfl, le_rfl⟩
  have hout : emitDataSequence none q = (parseUnmodifiedKittyPrintableCodepoint q, [.data q]) := by
    rcases emitDataSequence_cases none q with ⟨hsingle, heq, -⟩ | hout
    · exact absurd heq hsingle
    · exact hout
  rw [hout]
  rcases emitDataSequence_cases p q with ⟨hsingle, -, hskip⟩ | hemit
  · rw [hskip]
    exact ⟨.inr (parse_single hsingle), Nat.zero_le _⟩
  · rw [hemit]
    exact ⟨.inl rfl, le_rfl⟩

/-- Sequences that are left out, where they are reports, are missing among the events. -/
theorem length_emitAll_filter {leave : JsString → Bool}
    (hleave : ∀ q, leave q = true → isSgrMousePrefix q = true) (qs : List JsString)
    {p p' : Option Nat} (h : p' = p ∨ p' = none) :
    ((emitAll p' qs).1 = (emitAll p (qs.filter fun q => !leave q)).1 ∨ (emitAll p' qs).1 = none) ∧
      (emitAll p (qs.filter fun q => !leave q)).2.length + qs.countP leave ≤
        (emitAll p' qs).2.length := by
  induction qs generalizing p p' with
  | nil => exact ⟨h, le_rfl⟩
  | cons q qs ih =>
    rw [emitAll]
    dsimp only
    rw [length_append, countP_cons]
    by_cases hq : leave q = true
    · rw [filter_cons_of_neg (by rw [hq]; exact Bool.false_ne_true), if_pos hq]
      -- the report is emitted where it is not left out, and nothing is pending then
      have hout : emitDataSequence p' q = (none, [.data q]) := by
        rcases emitDataSequence_cases p' q with ⟨hsingle, -⟩ | hemit
        · exact absurd (singleCodePoint_report (hleave q hq)) hsingle
        · rw [hemit, parse_report (hleave q hq)]
      obtain ⟨hpending, hlength⟩ := @ih p none (.inr rfl)
      rw [hout]
      refine ⟨hpending, ?_⟩
      dsimp only
      rw [length_singleton]
      omega
    · rw [filter_cons_of_pos (by simp [hq]), if_neg hq, emitAll]
      dsimp only
      obtain ⟨hstep, hle⟩ := emitDataSequence_le h q
      obtain ⟨hpending, hlength⟩ := ih hstep
      refine ⟨hpending, ?_⟩
      rw [length_append]
      omega

theorem length_emitAll_le {p p' : Option Nat} (h : p' = p ∨ p' = none) (qs : List JsString) :
    (emitAll p qs).2.length ≤ (emitAll p' qs).2.length := by
  obtain ⟨-, hlength⟩ := @length_emitAll_filter (fun _ => false) (by simp) qs _ _ h
  simpa using hlength

/-- A cut gives other events. -/
def Differ (front back : JsString) : Prop :=
  (initial.process front).2 ++ ((initial.process front).1.process back).2 ≠
    (initial.process (front ++ back)).2

section
variable {rest : JsString} (hstart : splitFirst BRACKETED_PASTE_START input = some (before, rest))
include hstart

theorem run_of_splitFirst : input = before ++ (BRACKETED_PASTE_START ++ rest) ∧
      splitFirst BRACKETED_PASTE_START (before ++ BRACKETED_PASTE_START.dropLast) = none := by
  obtain ⟨hinput, hfirst⟩ := (splitFirst_eq_some start_ne_nil).mp hstart
  exact ⟨hinput, splitFirst_eq_none.mpr hfirst⟩

/-- **A malformed report before a paste**: cut at the start of the paste it is dropped, and
uncut it is emitted. -/
theorem differ_of_report (h : ¬ NoReport before) :
    input = before ++ (BRACKETED_PASTE_START ++ rest) ∧ before ≠ [] ∧
      Differ before (BRACKETED_PASTE_START ++ rest) := by
  obtain ⟨rfl, hfirst⟩ := run_of_splitFirst hstart
  have hnone : splitFirst BRACKETED_PASTE_START before = none := splitFirst_eq_none.mpr
    fun hoccurs => splitFirst_eq_none.mp hfirst (hoccurs.trans (prefix_append _ _).isInfix)
  unfold NoReport extractCompleteSequences at h
  push Not at h
  obtain ⟨q, hq, hreport⟩ := h
  have hne : before ≠ [] := by
    rintro rfl
    exact absurd hq (by simp [Tokenizer.run_none (Tokenizer.next_nil (t := sequences))])
  have hback : BRACKETED_PASTE_START ++ rest ≠ [] := by simp [start_ne_nil]
  obtain ⟨hevents, hevents'⟩ := process_cut hne hback hnone hstart rfl
  have hwhole : initial.process (before ++ (BRACKETED_PASTE_START ++ rest)) = _ :=
    @process_start [] _ before rest (by simp [hne]) hstart none
  refine ⟨rfl, hne, fun hsame => ?_⟩
  rw [hevents, hevents', hwhole] at hsame
  dsimp only at hsame
  rw [← append_assoc, append_left_inj, sequencesBefore_eq before, emitAll_append] at hsame
  have hlength := congrArg length hsame
  obtain ⟨hpending, hfewer⟩ := @length_emitAll_filter isMalformedReport
    (fun _ hleave => prefix_of_isMalformedReport hleave) (sequences.run before).1 none none
    (.inl rfl)
  have hmore := length_emitAll_le hpending (sequencesBefore (sequences.run before).2)
  have hcount : 0 < (sequences.run before).1.countP isMalformedReport :=
    countP_pos_iff.mpr ⟨q, hq, Bool.not_eq_false _ ▸ hreport⟩
  dsimp only at hlength
  rw [length_append, length_append] at hlength
  omega

end

/-! ## Input with a marker that is consumed -/

/-- What is pending is a character that is not a control character. -/
theorem emitAll_pending {p : Option Nat} (hp : ∀ c ∈ p, 32 ≤ c) (qs : List JsString) :
    ∀ c ∈ (emitAll p qs).1, 32 ≤ c := by
  induction qs generalizing p with
  | nil => exact hp
  | cons q qs ih =>
    rw [emitAll]
    refine ih fun c hc => ?_
    rcases emitDataSequence_cases p q with ⟨-, -, hskip⟩ | hemit
    · rw [hskip] at hc
      exact absurd hc (by simp)
    · rw [hemit, mem_def, parseUnmodifiedKittyPrintableCodepoint,
        bind_eq_some_iff] at hc
      obtain ⟨codepoint, -, hcodepoint⟩ := hc
      split_ifs at hcodepoint with hle
      · exact some.inj hcodepoint ▸ hle

/-- So a sequence that begins with an escape is emitted. -/
theorem emitDataSequence_escape {p : Option Nat} (hp : ∀ c ∈ p, 32 ≤ c)
    (hescape : q.head? = some ESC) : (emitDataSequence p q).2 = [.data q] := by
  rcases emitDataSequence_cases p q with ⟨hsingle, heq, -⟩ | hemit
  · exfalso
    match q with
    | [] => exact hsingle rfl
    | [u] =>
      obtain rfl : u = ESC := some.inj hescape
      exact absurd (hp 0x1b heq.symm) (by decide)
    | [u, v] =>
      obtain rfl : u = ESC := some.inj hescape
      exact hsingle rfl
    | _ :: _ :: _ :: _ => exact hsingle rfl
  · rw [hemit]

theorem getLast_of_report {token rest : JsString} (h : nextSequence text = some (token, rest))
    (hbegins : isSgrMousePrefix token = true) :
    token.getLast? = some 0x4d ∨ token.getLast? = some 0x6d := by
  obtain ⟨-, hsplit⟩ := nextSequence_split _ _ _ h
  have hreport : isSgrMousePrefix text = true := hsplit ▸ isSgrMousePrefix_append hbegins rest
  rw [nextSequence_report hreport] at h
  obtain ⟨n, hend, heq⟩ := map_eq_some_iff.mp h
  obtain ⟨htoken, -⟩ := Prod.mk.inj heq
  obtain ⟨-, -, hcomplete, -⟩ := (sequenceEnd_eq_some (by omega)).mp hend
  rw [htoken] at hcomplete
  obtain ⟨payload, rfl⟩ := List.isPrefixOf_iff_prefix.mp hbegins
  have hcsi : isCompleteSequence (ESC :: js "[<" ++ payload) =
      isCompleteCsiSequence (ESC :: js "[<" ++ payload) := rfl
  have hlast : (ESC :: js "[<" ++ payload).getLast? = some ((0x3c :: payload).getLast
      (cons_ne_nil _ _)) := by
    simp [js, getLast?_cons, getLast_eq_getLastD]
  have hpayload : (ESC :: js "[<" ++ payload).drop 2 = 0x3c :: payload := rfl
  rw [hcsi, isCompleteCsiSequence, if_neg (by simp [js]), hpayload] at hcomplete
  dsimp only at hcomplete
  rw [getLast?_eq_some_getLast (cons_ne_nil _ _)] at hcomplete
  dsimp only at hcomplete
  rw [hlast, some_inj, some_inj]
  by_contra hnot
  refine hcomplete ?_
  rw [if_pos (show (0x3c :: payload).head? = some 0x3c from rfl), if_neg hnot, ite_self]

/-- What waits begins with an escape, or is half a character. -/
theorem escape_of_waits (hne : text ≠ []) (hnone : nextSequence text = none) :
    text.head? = some ESC ∨ ∃ u, text = [u] ∧ u ≠ ESC ∧ isHighSurrogate u = true := by
  cases text with
  | nil => exact absurd rfl hne
  | cons u text =>
    by_cases hu : u = ESC
    · exact .inl (congrArg some hu)
    · rw [nextSequence_plain hu] at hnone
      split_ifs at hnone with hhigh
      cases text with
      | nil => exact .inr ⟨u, rfl, hu, hhigh⟩
      | cons v text =>
        dsimp only at hnone
        split_ifs at hnone

theorem consumed_of_not_kept (h : ¬ MarkerKept before) :
    ∃ front back, BRACKETED_PASTE_START.dropLast = front ++ back ∧ front ≠ [] ∧
      (sequences.run before).2.head? = some ESC ∧
      nextSequence ((sequences.run before).2 ++ BRACKETED_PASTE_START.dropLast) =
        some ((sequences.run before).2 ++ front, back) := by
  have hpending := nextSequence_pending before
  have hmarker : sequences.next BRACKETED_PASTE_START.dropLast = none := by decide
  unfold MarkerKept extractCompleteSequences at h
  rw [Tokenizer.run_append] at h
  generalize (sequences.run before).2 = pending at h hpending ⊢
  dsimp only at h
  rcases Tokenizer.next_append (t := sequences) hpending BRACKETED_PASTE_START.dropLast with
    hnone | ⟨front, back, hsplit, hnext⟩
  · rw [Tokenizer.run_none (t := sequences) hnone] at h
    exact absurd (suffix_append _ _) h
  · have hfront : front ≠ [] := by
      rintro rfl
      rw [nil_append] at hsplit
      rw [Tokenizer.run_some (t := sequences) hnext, ← hsplit,
        Tokenizer.run_none (t := sequences) hmarker] at h
      exact h (suffix_refl _)
    refine ⟨front, back, hsplit, hfront, ?_, hnext⟩
    have hne : pending ≠ [] := by
      rintro rfl
      rw [nil_append] at hnext
      exact absurd (hmarker.symm.trans hnext) (by simp)
    rcases escape_of_waits hne hpending with hescape | ⟨u, rfl, hu, hhigh⟩
    · exact hescape
    · -- half a character is a sequence of its own before an escape
      have hsingle : nextSequence ([u] ++ BRACKETED_PASTE_START.dropLast) =
          some ([u], BRACKETED_PASTE_START.dropLast) := by
        rw [singleton_append, nextSequence_plain hu, if_pos hhigh]
        rfl
      obtain ⟨htoken, -⟩ := Prod.mk.inj (some.inj (hsingle.symm.trans hnext))
      exact absurd (append_cancel_left ((append_nil [u]).trans htoken)).symm hfront

/-- What the marker but for its last unit ends is no mouse report. -/
theorem not_report_of_consumed (hmarker : BRACKETED_PASTE_START.dropLast = front ++ back)
    (hfront : front ≠ []) (h : nextSequence (text ++ (front ++ back)) = some (text ++ front, back))
    : isMalformedReport (text ++ front) = false := by
  by_contra hreport
  have hlast := getLast_of_report h (prefix_of_isMalformedReport (Bool.not_eq_false _ ▸ hreport))
  have hunits : ∀ u ∈ BRACKETED_PASTE_START.dropLast, u ≠ 0x4d ∧ u ≠ 0x6d := by
    simp [BRACKETED_PASTE_START, ESC, js]
  have hend : ∀ u, (text ++ front).getLast? = some u → u ∈ BRACKETED_PASTE_START.dropLast := by
    intro u hu
    rw [getLast?_append_of_ne_nil _ hfront] at hu
    rw [hmarker]
    exact mem_append_left _ (mem_of_getLast? hu)
  rcases hlast with hlast | hlast
  · exact (hunits _ (hend _ hlast)).1 rfl
  · exact (hunits _ (hend _ hlast)).2 rfl

section
variable {rest : JsString} (hstart : splitFirst BRACKETED_PASTE_START input = some (before, rest))
include hstart

/-- **A marker that is consumed**: cut before its last unit, the sequence that waits before it
goes on into the marker, and uncut it ends there. -/
theorem differ_of_not_kept (hreport : NoReport before) (h : ¬ MarkerKept before) :
    ∃ front back, input = front ++ back ∧ front ≠ [] ∧ back ≠ [] ∧ Differ front back := by
  obtain ⟨rfl, hnone⟩ := run_of_splitFirst hstart
  obtain ⟨f, f', hmarker, hf, hescape, hnext⟩ := consumed_of_not_kept h
  have hlast : BRACKETED_PASTE_START = BRACKETED_PASTE_START.dropLast ++ js "~" := rfl
  have hinput : before ++ (BRACKETED_PASTE_START ++ rest) =
      (before ++ BRACKETED_PASTE_START.dropLast) ++ (js "~" ++ rest) := by
    rw [append_assoc, ← append_assoc _ (js "~"), ← hlast]
  have hfront : before ++ BRACKETED_PASTE_START.dropLast ≠ [] := by
    simp [show BRACKETED_PASTE_START.dropLast ≠ [] from cons_ne_nil _ _]
  refine ⟨before ++ BRACKETED_PASTE_START.dropLast, js "~" ++ rest, hinput, hfront,
    cons_ne_nil _ _, fun hsame => ?_⟩
  have hwhole : initial.process (before ++ (BRACKETED_PASTE_START ++ rest)) = _ :=
    @process_start [] _ before rest (by simp [start_ne_nil]) hstart none
  have hfirst : initial.process (before ++ BRACKETED_PASTE_START.dropLast) = _ :=
    @process_sequences [] _ hfront hnone none
  -- both begin with the sequences before the one that waits
  have hpending := nextSequence_pending before
  have hne : (sequences.run before).2 ≠ [] := by
    intro hempty
    rw [hempty] at hescape
    exact absurd hescape (by simp)
  have hkept := filter_of_noReport hreport fun q hq => hq
  have hrun : (sequences.run (before ++ BRACKETED_PASTE_START.dropLast)).1 =
      (sequences.run before).1 ++ ((sequences.run before).2 ++ f) :: (sequences.run f').1 := by
    rw [Tokenizer.run_append, Tokenizer.run_some (t := sequences) hnext]
  have hplain : isMalformedReport ((sequences.run before).2 ++ f) = false :=
    not_report_of_consumed hmarker hf (hmarker ▸ hnext)
  rw [← hinput, hwhole, hfirst, nil_append, hrun, filter_append, hkept,
    filter_cons_of_pos (by rw [hplain]; rfl), sequencesBefore_eq before,
    sequencesBefore_pending hpending, if_neg hne, emitAll_append, emitAll_append] at hsame
  dsimp only at hsame
  have hprintable := @emitAll_pending none (by simp) (sequences.run before).1
  simp only [append_assoc, append_right_inj, emitAll, emitDataSequence_escape hprintable hescape,
    emitDataSequence_escape hprintable (show ((sequences.run before).2 ++ f).head? = some ESC by
        rw [head?_append_of_ne_nil _ hne, hescape]),
    cons_append] at hsame
  exact hf (append_right_eq_self.mp (StdinEvent.data.inj (List.cons.inj hsame).1))

theorem process_finished {content remaining : JsString}
    (hfinish : splitFirst BRACKETED_PASTE_END rest = some (content, remaining))
    (hremaining : remaining ≠ []) : initial.process input = ((initial.process remaining).1,
      (emitAll none (sequencesBefore before)).2 ++
        .paste content :: (initial.process remaining).2) := by
  have hne : input ≠ [] := by
    rintro rfl
    exact some_ne_none _ (hstart.symm.trans rfl)
  have hinput : initial.process input = _ := @process_start [] input before rest hne hstart none
  rw [hinput, pasteRest, hfinish]
  dsimp only
  rw [if_neg hremaining]

end

/-- **Input whose markers do not stand apart has a cut that changes its events.** -/
theorem exists_differ (h : ¬ MarkersApart input) :
    ∃ front back, input = front ++ back ∧ front ≠ [] ∧ back ≠ [] ∧ Differ front back := by
  induction hn : input.length using Nat.strong_induction_on generalizing input with
  | _ n ih =>
    cases hstart : splitFirst BRACKETED_PASTE_START input with
    | none => exact absurd (.plain hstart) h
    | some out =>
      obtain ⟨before, rest⟩ := out
      by_cases hreport : NoReport before
      case neg =>
        obtain ⟨hinput, hne, hdiffer⟩ := differ_of_report hstart hreport
        exact ⟨_, _, hinput, hne, by simp [start_ne_nil], hdiffer⟩
      by_cases hkept : MarkerKept before
      case neg => exact differ_of_not_kept hstart hreport hkept
      cases hfinish : splitFirst BRACKETED_PASTE_END rest with
      | none => exact absurd (.unfinished hstart hkept hreport hfinish) h
      | some out =>
        -- what follows the paste is cut
        obtain ⟨content, remaining⟩ := out
        obtain ⟨hinput, hfirst⟩ := (splitFirst_eq_some start_ne_nil).mp hstart
        obtain ⟨hrest, hfirst'⟩ := (splitFirst_eq_some end_ne_nil).mp hfinish
        have hlength : remaining.length < n := by
          have hpos := length_pos_of_ne_nil start_ne_nil
          rw [← hn, hinput, hrest]
          simp only [length_append]
          omega
        obtain ⟨front, back, rfl, hfront, hback, hdiffer⟩ := ih _ hlength
          (fun hapart => h (.finished hstart hkept hreport hfinish hapart)) rfl
        let before' := before ++ (BRACKETED_PASTE_START ++ (content ++ BRACKETED_PASTE_END))
        refine ⟨before' ++ front, back, ?_, by simp [hfront], hback, fun hsame => hdiffer ?_⟩
        · rw [hinput, hrest]
          simp only [before', append_assoc]
        have hstart' : splitFirst BRACKETED_PASTE_START (before' ++ front) =
            some (before, content ++ (BRACKETED_PASTE_END ++ front)) :=
          (splitFirst_eq_some start_ne_nil).mpr ⟨by simp only [before', append_assoc], hfirst⟩
        have hfinish' : splitFirst BRACKETED_PASTE_END
            (content ++ (BRACKETED_PASTE_END ++ front)) = some (content, front) :=
          (splitFirst_eq_some end_ne_nil).mpr ⟨rfl, hfirst'⟩
        have hcut := process_finished hstart' hfinish' hfront
        have hwhole := process_finished (splitFirst_append start_ne_nil hstart' back)
          (splitFirst_append end_ne_nil hfinish' back) (by simp [hfront])
        rw [hcut, hwhole] at hsame
        simpa only [append_assoc, cons_append, append_right_inj,
          List.cons.injEq, true_and] using hsame

/-- The events and the buffer do not depend on how the input is cut into chunks. -/
def SplitsAlike (input : JsString) : Prop :=
  ∀ chunks : List JsString, (∀ chunk ∈ chunks, chunk ≠ []) → chunks.flatten = input →
    (feed initial chunks).2 = (feed initial [input]).2 ∧
      (feed initial chunks).1.buffer = (feed initial [input]).1.buffer

/-- **Input is decoded alike however it is cut exactly if its markers stand apart.** -/
theorem splitsAlike_iff (input : JsString) :
    SplitsAlike input ↔ input ≠ [] ∧ MarkersApart input := by
  have hone : feed initial [input] = ((initial.process input).1, (initial.process input).2) := by
    simp only [feed, append_nil]
  unfold SplitsAlike
  rw [hone]
  constructor
  · intro halike
    refine ⟨?_, ?_⟩
    · -- no chunk at all, and a call with the empty string
      rintro rfl
      obtain ⟨hevents, -⟩ := halike [] (by simp) rfl
      exact absurd hevents (by decide)
    · by_contra happart
      obtain ⟨front, back, rfl, hfront, hback, hdiffer⟩ := exists_differ happart
      obtain ⟨hevents, -⟩ := halike [front, back] (by simp [hfront, hback]) (by simp)
      refine hdiffer ?_
      simpa only [feed, append_nil] using hevents
  · rintro ⟨hne, hapart⟩ chunks hchunks rfl
    cases chunks with
    | nil => exact absurd rfl hne
    | cons front chunks =>
      rw [feed_of_markersApart (hchunks front mem_cons_self)
        (fun c hc => hchunks c (mem_cons_of_mem _ hc)) hapart]
      exact ⟨rfl, rfl⟩

/-- Two escapes before a paste: read apart from the rest of the marker they are a key. -/
theorem escape_before_paste_differs :
    feed initial [[ESC, ESC], js "[200~"] ≠ feed initial [[ESC] ++ BRACKETED_PASTE_START] ∧
      ¬ SplitsAlike ([ESC] ++ BRACKETED_PASTE_START) := by
  have hevents : (feed initial [[ESC, ESC], js "[200~"]).2 ≠
      (feed initial [[ESC] ++ BRACKETED_PASTE_START]).2 := by decide
  refine ⟨fun hsame => hevents (congrArg _ hsame), fun halike => hevents ?_⟩
  exact (halike [[ESC, ESC], js "[200~"] (by decide) (by decide)).1

end StdinBuffer
end GajaeCode
