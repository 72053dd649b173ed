import GajaeCode.Runs
import GajaeCode.StdinSplits
import GajaeCode.StdinUtf8

/-! # Malformed mouse reports on stdin

`StdinBuffer` drops what begins like a mouse report and is none, in the main loop, when a timer
fires and on `flush`; but what stands before the start of a paste is emitted as it is.  Over any
run of calls and timers, no malformed report is emitted just when none stands before the start of
a paste in any text that reaches the splitter (`reports_clean_iff`).
-/
namespace GajaeCode
open JsString List
open StdinBuffer

namespace StdinBuffer
variable {text : JsString}

/-- The event is no malformed mouse report. -/
def StdinEvent.Clean : StdinEvent → Prop
  | .data sequence => isMalformedReport sequence = false
  | .paste _ => True

/-- What stands before the starts of pastes in a text that is not longer than the fuel. -/
def beforePastesFrom : Nat → JsString → List JsString
  | 0, _ => []
  | fuel + 1, text =>
    match splitFirst BRACKETED_PASTE_START text with
    | none => []
    | some (before, rest) =>
      before :: match splitFirst BRACKETED_PASTE_END rest with
        | none => []
        | some (_, remaining) => beforePastesFrom fuel remaining

def beforePastes (text : JsString) : List JsString := beforePastesFrom (text.length + 1) text

/-- What stands before the starts of pastes after the end of a paste. -/
def afterPaste (content : JsString) : List JsString :=
  match splitFirst BRACKETED_PASTE_END content with
  | none => []
  | some (_, remaining) => beforePastes remaining

/-- What stands before the starts of pastes when a text is put behind what is pending. -/
def pasteStarts (st : StdinBuffer) (data : JsString) : List JsString :=
  if st.pasteMode then afterPaste (st.pasteBuffer ++ (st.buffer ++ data))
  else beforePastes (st.buffer ++ data)

/-- No malformed report stands before the start of a paste, complete or not. -/
def StartsClean (st : StdinBuffer) (data : JsString) : Prop :=
  ∀ before ∈ pasteStarts st data, ∀ sequence ∈ sequencesBefore before,
    isMalformedReport sequence = false

theorem length_of_splitFirst {marker before after : JsString} (hne : marker ≠ [])
    (h : splitFirst marker text = some (before, after)) : after.length < text.length := by
  obtain ⟨rfl, -⟩ := (splitFirst_eq_some hne).mp h
  have := length_pos_of_ne_nil hne
  simp only [length_append]
  omega

theorem beforePastesFrom_eq {fuel : Nat} (h : text.length < fuel) :
    beforePastesFrom fuel text = beforePastes text := by
  induction hn : text.length using Nat.strong_induction_on generalizing fuel text with
  | _ n ih =>
    obtain ⟨fuel, rfl⟩ : ∃ f, fuel = f + 1 := ⟨fuel - 1, by omega⟩
    rw [beforePastes, beforePastesFrom, beforePastesFrom]
    cases hstart : splitFirst BRACKETED_PASTE_START text with
    | none => rfl
    | some out =>
      obtain ⟨before, rest⟩ := out
      cases hend : splitFirst BRACKETED_PASTE_END rest with
      | none => simp only [hend]
      | some out =>
        obtain ⟨content, remaining⟩ := out
        have hrest := length_of_splitFirst start_ne_nil hstart
        have hremaining := length_of_splitFirst end_ne_nil hend
        simp only [hend, ih remaining.length (by omega) (show remaining.length < fuel by omega) rfl,
          ih remaining.length (by omega) (show remaining.length < text.length by omega) rfl]

theorem beforePastes_none (h : splitFirst BRACKETED_PASTE_START text = none) :
    beforePastes text = [] := by
  simp only [beforePastes, beforePastesFrom, h]

theorem beforePastes_some {before rest : JsString}
    (h : splitFirst BRACKETED_PASTE_START text = some (before, rest)) :
    beforePastes text = before :: afterPaste rest := by
  unfold beforePastes afterPaste
  rw [beforePastesFrom, h]
  cases hend : splitFirst BRACKETED_PASTE_END rest with
  | none => simp only [hend]
  | some out =>
    obtain ⟨content, remaining⟩ := out
    have hrest := length_of_splitFirst start_ne_nil h
    have hremaining := length_of_splitFirst end_ne_nil hend
    simp only [hend, beforePastesFrom_eq (show remaining.length < text.length by omega)]

/-- A malformed report is never left out as the second event of a key. -/
theorem emitDataSequence_clean_iff (pending : Option Nat) (sequence : JsString) :
    (∀ event ∈ (emitDataSequence pending sequence).2, event.Clean) ↔
      isMalformedReport sequence = false := by
  rcases emitDataSequence_cases pending sequence with ⟨hsingle, -, heq⟩ | heq <;> rw [heq]
  · refine iff_of_true (forall_mem_nil _) ?_
    by_contra hreport
    have hreport := Bool.not_eq_false _ ▸ hreport
    exact hsingle (singleCodePoint_report (Bool.and_eq_true_iff.mp hreport).1)
  · exact forall_mem_singleton

theorem emitAll_clean_iff (pending : Option Nat) (qs : List JsString) :
    (∀ event ∈ (emitAll pending qs).2, event.Clean) ↔
      ∀ sequence ∈ qs, isMalformedReport sequence = false := by
  induction qs generalizing pending with
  | nil => exact iff_of_true (forall_mem_nil _) (forall_mem_nil _)
  | cons sequence qs ih =>
    rw [emitAll, forall_mem_append, emitDataSequence_clean_iff, ih, forall_mem_cons]

/-- What is kept between two calls: no marker is pending. -/
structure Kept (st : StdinBuffer) : Prop where
  buffer : st.pasteMode = true → st.buffer = []
  noEnd : st.pasteMode = true → splitFirst BRACKETED_PASTE_END st.pasteBuffer = none
  noStart : st.pasteMode = false → splitFirst BRACKETED_PASTE_START st.buffer = none

theorem kept_initial : Kept initial := ⟨nofun, nofun, fun _ => rfl⟩

/-- Nothing is malformed that is emitted before the starts of pastes. -/
def AllClean (befores : List JsString) : Prop :=
  ∀ before ∈ befores, ∀ sequence ∈ sequencesBefore before, isMalformedReport sequence = false

/-- The end of a paste emits no report, and leaves what follows it. -/
theorem finishPaste_clean {st : StdinBuffer} (hbuffer : st.buffer = [])
    (hpaste : st.pasteMode = true) : (∀ event ∈ (finishPaste st).events, event.Clean) ∧
      afterPaste st.pasteBuffer = beforePastes (finishPaste st).remaining ∧
      ((finishPaste st).remaining = [] → Kept (finishPaste st).state) := by
  unfold finishPaste afterPaste
  cases hend : splitFirst BRACKETED_PASTE_END st.pasteBuffer with
  | none =>
    exact ⟨forall_mem_nil _, rfl, fun _ => ⟨fun _ => hbuffer, fun _ => hend,
      fun hwaiting => Bool.noConfusion (hpaste.symm.trans hwaiting)⟩⟩
  | some out =>
    exact ⟨forall_mem_singleton.mpr trivial, rfl, fun _ => ⟨nofun, nofun, fun _ => by
      simp only [hbuffer]
      rfl⟩⟩

section
variable {st : StdinBuffer} {data : JsString} (hdata : ¬ (data = [] ∧ st.buffer = []))
include hdata

/-- What one round of `process` emits before the text that follows a paste. -/
theorem processOnce_clean_iff :
    (StartsClean st data ↔ (∀ event ∈ (st.processOnce data).events, event.Clean) ∧
      AllClean (beforePastes (st.processOnce data).remaining)) ∧
    ((st.processOnce data).remaining = [] → Kept (st.processOnce data).state) := by
  cases hpaste : st.pasteMode with
  | true =>
    rw [processOnce_paste hdata hpaste, StartsClean, pasteStarts, if_pos hpaste]
    obtain ⟨hevents, hafter, hkept⟩ := @finishPaste_clean { st with
      buffer := [], pasteBuffer := st.pasteBuffer ++ (st.buffer ++ data) } rfl hpaste
    refine ⟨?_, hkept⟩
    rw [← hafter]
    exact (and_iff_right hevents).symm
  | false =>
    rw [StartsClean, pasteStarts, if_neg (by simp [hpaste])]
    cases hstart : splitFirst BRACKETED_PASTE_START (st.buffer ++ data) with
    | none =>
      rw [processOnce_sequences hdata hpaste hstart, beforePastes_none hstart]
      refine ⟨iff_of_true (forall_mem_nil _) ⟨?_, forall_mem_nil _⟩, fun _ =>
        ⟨fun h => absurd h (by simp [hpaste]), fun h => absurd h (by simp [hpaste]), fun _ => ?_⟩⟩
      · refine (emitAll_clean_iff _ _).mpr fun sequence hsequence => ?_
        simpa using (mem_filter.mp hsequence).2
      · refine splitFirst_eq_none.mpr fun hinfix => splitFirst_eq_none.mp hstart ?_
        exact hinfix.trans (pending_suffix _).isInfix
    | some out =>
      obtain ⟨before, rest⟩ := out
      rw [processOnce_start hdata hpaste hstart, beforePastes_some hstart]
      obtain ⟨hevents, hafter, hkept⟩ := @finishPaste_clean ⟨[], true, rest, none⟩ rfl rfl
      refine ⟨?_, hkept⟩
      simp only [forall_mem_append, emitAll_clean_iff, forall_mem_cons, hafter, AllClean,
        and_iff_left hevents]

/-- `process` emits no malformed report just when none stands before the start of a paste. -/
theorem process_clean_iff : ((∀ event ∈ (st.process data).2, event.Clean) ↔ StartsClean st data) ∧
      Kept (st.process data).1 := by
  induction hn : st.pasteBuffer.length + st.buffer.length + data.length
    using Nat.strong_induction_on generalizing st data with
  | _ n ih =>
    obtain ⟨hclean, hkept⟩ := processOnce_clean_iff hdata
    rw [process_eq, hclean]
    by_cases hremaining : (st.processOnce data).remaining = []
    · simp only [hremaining]
      exact ⟨(and_iff_left (forall_mem_nil _)).symm, hkept hremaining⟩
    · obtain ⟨-, hlength⟩ := processOnce_remaining hremaining
      have hrest := @ih _ (hn ▸ hlength) initial _ (fun h => hremaining h.1) (by simp [initial])
      simp only [if_neg hremaining]
      refine ⟨?_, hrest.2⟩
      rw [forall_mem_append, hrest.1]
      rfl

end

end StdinBuffer

namespace StdinStream
variable {D : Type}
variable {st : StdinStream D}
variable (dec : StringDecoder D)

/-! ## Runs -/

inductive StdinOp where
  | bytes (data : List UInt8)
  | text (data : JsString)
  | flush
  | fire (handle : Nat)

/-- A call or a timer.  What `flush` returns is emitted by its caller. -/
def act (dec : StringDecoder D) (st : StdinStream D) : StdinOp → StdinStream D × List StdinEvent
  | .bytes data => st.processBytes dec data
  | .text data => st.processText data
  | .flush => (st.flush.1, st.flush.2.map .data)
  | .fire handle => st.fire handle

def step (dec : StringDecoder D) (s : StdinStream D × List StdinEvent) (op : StdinOp) :
    StdinStream D × List StdinEvent :=
  ((s.1.act dec op).1, s.2 ++ (s.1.act dec op).2)

/-- The text of a call that reaches the sequence splitter. -/
def reaching (dec : StringDecoder D) (st : StdinStream D) : StdinOp → JsString
  | .bytes data => st.handed dec data
  | .text data => (st.clearUnlessQuarantine.emitPendingLead.1.intake data).1
  | .flush | .fire _ => []

/-- No malformed report stands before the start of a paste in what reaches the splitter. -/
def OpClean (dec : StringDecoder D) (s : StdinStream D × List StdinEvent) (op : StdinOp) : Prop :=
  StartsClean s.1.input (s.1.reaching dec op)

/-- The parts of the pending input that the splitter looks at. -/
structure SameInput (st st' : StdinStream D) : Prop where
  buffer : st'.input.buffer = st.input.buffer
  pasteMode : st'.input.pasteMode = st.input.pasteMode
  pasteBuffer : st'.input.pasteBuffer = st.input.pasteBuffer

theorem SameInput.rfl : SameInput st st := ⟨Eq.refl _, Eq.refl _, Eq.refl _⟩

section
variable {st' : StdinStream D} (h : SameInput st st')
include h

theorem SameInput.trans {st'' : StdinStream D} (h' : SameInput st' st'') : SameInput st st'' :=
  ⟨h'.buffer.trans h.buffer, h'.pasteMode.trans h.pasteMode, h'.pasteBuffer.trans h.pasteBuffer⟩

theorem SameInput.startsClean_iff (data : JsString) :
    StartsClean st'.input data ↔ StartsClean st.input data := by
  simp only [StartsClean, pasteStarts, h.buffer, h.pasteMode, h.pasteBuffer]

theorem SameInput.kept (hkept : Kept st.input) : Kept st'.input := by
  refine ⟨fun hpaste => ?_, fun hpaste => ?_, fun hpaste => ?_⟩ <;> rw [h.pasteMode] at hpaste
  · exact h.buffer.trans (hkept.buffer hpaste)
  · rw [h.pasteBuffer]
    exact hkept.noEnd hpaste
  · rw [h.buffer]
    exact hkept.noStart hpaste

end

theorem legacyMeta_clean (byte : UInt8) : isMalformedReport (legacyMetaSequence byte) = false := by
  simp [isMalformedReport, isSgrMousePrefix, legacyMetaSequence, js]

theorem clearTimer_same (st : StdinStream D) : SameInput st st.clearTimer :=
  ⟨Eq.refl _, Eq.refl _, Eq.refl _⟩

theorem clearUnlessQuarantine_same (st : StdinStream D) :
    SameInput st st.clearUnlessQuarantine := by
  unfold clearUnlessQuarantine
  split
  · exact st.clearTimer_same
  · exact .rfl

theorem emit_same (st : StdinStream D) (sequence : JsString) : SameInput st (st.emit sequence).1 :=
  ⟨Eq.refl _, Eq.refl _, Eq.refl _⟩

theorem emitPendingLead_spec (st : StdinStream D) : SameInput st st.emitPendingLead.1 ∧
    ∀ event ∈ st.emitPendingLead.2, event.Clean := by
  unfold emitPendingLead consumePendingSingleUtf8LeadAsMeta
  cases st.pendingSingleUtf8LeadByte with
  | none => exact ⟨.rfl, forall_mem_nil _⟩
  | some byte =>
    exact ⟨⟨Eq.refl _, Eq.refl _, Eq.refl _⟩,
      (emitDataSequence_clean_iff _ _).mpr (legacyMeta_clean byte)⟩

theorem resume_suffix (data : JsString) : resume data <:+ data := by
  have hdrop := dropWhile_suffix (l := data) fun u => isDigit u || u = 0x3b
  unfold resume
  split
  · exact nil_suffix
  · rename_i u rest heq
    rw [heq] at hdrop
    split
    · exact (suffix_cons u rest).trans hdrop
    · exact hdrop

theorem consumeSgrQuarantine_spec (st : StdinStream D) (data : JsString) :
    (st.consumeSgrQuarantine data).1 <:+ data ∧ SameInput st (st.consumeSgrQuarantine data).2 := by
  induction data generalizing st with
  | nil => exact ⟨nil_suffix, .rfl⟩
  | cons char data ih =>
    have hskip : ∀ st' : StdinStream D, SameInput st st' →
        (st'.consumeSgrQuarantine data).1 <:+ char :: data ∧
          SameInput st (st'.consumeSgrQuarantine data).2 := fun st' hst' =>
      ⟨(ih st').1.trans (suffix_cons _ _), hst'.trans (ih st').2⟩
    have hend : SameInput st st.endSgrQuarantine := ⟨Eq.refl _, Eq.refl _, Eq.refl _⟩
    unfold consumeSgrQuarantine
    split_ifs
    · exact ⟨resume_suffix _, hend⟩
    · exact hskip _ ⟨Eq.refl _, Eq.refl _, Eq.refl _⟩
    · exact hskip _ ⟨Eq.refl _, Eq.refl _, Eq.refl _⟩
    · exact ⟨suffix_cons _ _, hend⟩
    · exact ⟨suffix_rfl, hend⟩

theorem intake_spec (st : StdinStream D) (str : JsString) :
    (st.intake str).1 <:+ str ∧ SameInput st (st.intake str).2 := by
  unfold intake
  split
  · exact st.consumeSgrQuarantine_spec str
  · exact ⟨suffix_rfl, .rfl⟩

theorem joinPendingLead_spec (st : StdinStream D) (data : List UInt8) :
    SameInput st (st.joinPendingLead data).2.1 ∧
      ∀ event ∈ (st.joinPendingLead data).2.2, event.Clean := by
  unfold joinPendingLead
  split
  · exact ⟨.rfl, forall_mem_nil _⟩
  · split
    · exact ⟨⟨Eq.refl _, Eq.refl _, Eq.refl _⟩, forall_mem_nil _⟩
    · exact st.emitPendingLead_spec

theorem decode_spec (st : StdinStream D) (data : List UInt8) :
    SameInput st (st.decode dec data).2.1 ∧ ∀ event ∈ (st.decode dec data).2.2, event.Clean := by
  have hjoin := st.joinPendingLead_spec data
  unfold decode
  generalize st.joinPendingLead data = joined at hjoin
  obtain ⟨bytes, st', events⟩ := joined
  obtain ⟨hsame, hevents⟩ := hjoin
  have hfields : ∀ st'' : StdinStream D, st''.input = st'.input → SameInput st st'' := fun _ h =>
    hsame.trans ⟨congrArg _ h, congrArg _ h, congrArg _ h⟩
  dsimp only
  split
  · split_ifs
    · exact ⟨hfields _ rfl, hevents⟩
    · exact ⟨hsame, hevents⟩
    · exact ⟨hfields _ rfl, hevents⟩
  · exact ⟨hfields _ rfl, hevents⟩

theorem startsClean_nil {st : StdinBuffer} (h : Kept st) : StartsClean st [] := by
  unfold StartsClean pasteStarts
  cases hpaste : st.pasteMode with
  | true =>
    rw [if_pos rfl, h.buffer hpaste, append_nil, append_nil, afterPaste, h.noEnd hpaste]
    exact forall_mem_nil _
  | false =>
    rw [if_neg Bool.false_ne_true, append_nil, beforePastes_none (h.noStart hpaste)]
    exact forall_mem_nil _

/-- Decoded text is emitted without a malformed report just when none stands before the start of
a paste. -/
theorem accept_spec (h : Kept st.input) (str : JsString) (decodedFromBuffer : Bool) :
    ((∀ event ∈ (st.accept str decodedFromBuffer).2, event.Clean) ↔
      StartsClean st.input (st.intake str).1) ∧ Kept (st.accept str decodedFromBuffer).1.input := by
  obtain ⟨hsuffix, hsame⟩ := st.intake_spec str
  unfold accept
  by_cases hempty : str = [] ∧ st.input.buffer = []
  · rw [if_pos hempty]
    obtain ⟨rfl, -⟩ := hempty
    rw [suffix_nil.mp hsuffix]
    have hclean := startsClean_nil h
    cases decodedFromBuffer with
    | true => exact ⟨iff_of_true (forall_mem_nil _) hclean, h⟩
    | false =>
      exact ⟨iff_of_true ((emitDataSequence_clean_iff _ _).mpr rfl) hclean,
        (st.emit_same []).kept h⟩
  · rw [if_neg hempty]
    dsimp only
    by_cases hnone : st.sgrQuarantine ∧ (st.intake str).1 = []
    · rw [if_pos hnone, hnone.2]
      exact ⟨iff_of_true (forall_mem_nil _) (startsClean_nil h), hsame.kept h⟩
    · rw [if_neg hnone]
      have hdata : ¬ ((st.intake str).1 = [] ∧ (st.intake str).2.input.buffer = []) := by
        rintro ⟨htaken, hbuffer⟩
        rw [hsame.buffer] at hbuffer
        by_cases hquarantine : st.sgrQuarantine = true
        · exact hnone ⟨hquarantine, htaken⟩
        · rw [intake, if_neg hquarantine] at htaken
          exact hempty ⟨htaken, hbuffer⟩
      obtain ⟨hclean, hkept⟩ := process_clean_iff hdata
      refine ⟨hclean.trans (hsame.startsClean_iff _), ?_⟩
      split
      · exact hkept
      · exact hkept

/-! ## One call or timer -/

theorem processText_spec {st : StdinStream D} (h : Kept st.input) (data : JsString) :
    ((∀ event ∈ (st.processText data).2, event.Clean) ↔
      StartsClean st.input (st.clearUnlessQuarantine.emitPendingLead.1.intake data).1) ∧
    Kept (st.processText data).1.input := by
  obtain ⟨hsame, hevents⟩ := st.clearUnlessQuarantine.emitPendingLead_spec
  have hsame := st.clearUnlessQuarantine_same.trans hsame
  obtain ⟨hclean, hkept⟩ := accept_spec (hsame.kept h) data false
  refine ⟨?_, hkept⟩
  unfold processText
  rw [forall_mem_append, and_iff_right hevents, hclean, hsame.startsClean_iff]

theorem processBytes_spec (h : Kept st.input) (data : List UInt8) :
    ((∀ event ∈ (st.processBytes dec data).2, event.Clean) ↔
      StartsClean st.input (st.handed dec data)) ∧ Kept (st.processBytes dec data).1.input := by
  obtain ⟨hsame, hevents⟩ := st.clearUnlessQuarantine.decode_spec dec data
  have hsame := st.clearUnlessQuarantine_same.trans hsame
  unfold processBytes handed
  generalize st.clearUnlessQuarantine.decode dec data = out at hsame hevents
  obtain ⟨decoding, st', events⟩ := out
  have haccept : ∀ str decodedFromBuffer,
      ((∀ event ∈ events ++ (st'.accept str decodedFromBuffer).2, event.Clean) ↔
        StartsClean st.input (st'.intake str).1) ∧
      Kept (st'.accept str decodedFromBuffer).1.input := fun str decodedFromBuffer => by
    obtain ⟨hclean, hkept⟩ := accept_spec (hsame.kept h) str decodedFromBuffer
    refine ⟨?_, hkept⟩
    rw [forall_mem_append, and_iff_right hevents, hclean]
    exact hsame.startsClean_iff _
  cases decoding with
  | held => exact ⟨iff_of_true hevents (startsClean_nil h), hsame.kept h⟩
  | legacy byte | decoded str => exact haccept _ _

theorem consumePendingSingleUtf8LeadAsMeta_same (st : StdinStream D) :
    SameInput st st.consumePendingSingleUtf8LeadAsMeta.2 := by
  unfold consumePendingSingleUtf8LeadAsMeta
  split
  · exact .rfl
  · exact ⟨Eq.refl _, Eq.refl _, Eq.refl _⟩

theorem stop_same (st : StdinStream D) : SameInput st st.stop := by
  unfold stop
  have hclear : SameInput st (if st.timeout.isSome then st.clearTimer else st) := by
    split
    · exact st.clearTimer_same
    · exact .rfl
  dsimp only
  generalize (if st.timeout.isSome then st.clearTimer else st) = st' at hclear
  split
  · exact hclear.trans ⟨Eq.refl _, Eq.refl _, Eq.refl _⟩
  · exact hclear

/-- An input that is not in a paste may lose its buffer. -/
theorem kept_emptied {input : StdinBuffer} (h : Kept input) (pending : Option Nat) :
    Kept { input with buffer := [], pendingKittyPrintableCodepoint := pending } :=
  ⟨fun _ => rfl, h.noEnd, fun _ => rfl⟩

theorem flush_spec (h : Kept st.input) :
    (∀ sequence ∈ st.flush.2, isMalformedReport sequence = false) ∧ Kept st.flush.1.input := by
  have hmeta : ∀ byte : Option UInt8, ∀ sequence ∈ (byte.map legacyMetaSequence).toList,
      isMalformedReport sequence = false := by
    rintro (- | byte)
    · exact forall_mem_nil _
    · exact forall_mem_singleton.mpr (legacyMeta_clean byte)
  have hkept := ((st.stop_same).trans st.stop.consumePendingSingleUtf8LeadAsMeta_same).kept h
  unfold flush
  dsimp only
  split
  · exact ⟨hmeta _, hkept⟩
  · split
    · exact ⟨hmeta _, kept_emptied hkept none⟩
    · rename_i hprefix
      refine ⟨forall_mem_append.mpr ⟨hmeta _, forall_mem_singleton.mpr ?_⟩, kept_emptied hkept none⟩
      simp [isMalformedReport, hprefix]

theorem scanReport_suffix (semicolons : Nat) (hasDigit : Bool) (text : JsString) :
    (scanReport semicolons hasDigit text).1 <:+ text := by
  induction text generalizing semicolons hasDigit with
  | nil => exact nil_suffix
  | cons char text ih =>
    unfold scanReport
    split_ifs
    · exact (ih _ _).trans (suffix_cons _ _)
    · exact (ih _ _).trans (suffix_cons _ _)
    · exact suffix_rfl

theorem startsClean_of_suffix {st : StdinBuffer} (hpaste : st.pasteMode = false)
    (hbuffer : st.buffer = []) {text text' : JsString} (hsuffix : text' <:+ text)
    (hnone : splitFirst BRACKETED_PASTE_START text = none) : StartsClean st text' := by
  have hnone' : splitFirst BRACKETED_PASTE_START text' = none :=
    splitFirst_eq_none.mpr fun h => splitFirst_eq_none.mp hnone (h.trans hsuffix.isInfix)
  unfold StartsClean pasteStarts
  rw [if_neg (by simp [hpaste]), hbuffer, nil_append, beforePastes_none hnone']
  exact forall_mem_nil _

/-- A report that is given up is quarantined, or what follows it is processed. -/
theorem beginSgrQuarantine_spec (h : Kept st.input) :
    (∀ event ∈ st.beginSgrQuarantine.2, event.Clean) ∧ Kept st.beginSgrQuarantine.1.input := by
  have hempty := kept_emptied h none
  have hsuffix := (scanReport_suffix 0 false (st.input.buffer.drop 3)).trans
    (drop_suffix 3 st.input.buffer)
  unfold beginSgrQuarantine
  dsimp only
  split
  · exact ⟨forall_mem_nil _, hempty⟩
  · rename_i remainder semicolons hasDigit hne hscan
    rw [hscan] at hsuffix
    obtain ⟨hclean, hkept⟩ := @processText_spec D { st with
      input.buffer := [], input.pendingKittyPrintableCodepoint := none } hempty remainder
    refine ⟨hclean.mpr ?_, hkept⟩
    have hpaste : st.input.pasteMode = false := by
      by_contra hpaste
      have hbuffer := h.buffer (Bool.not_eq_false _ ▸ hpaste)
      rw [hbuffer] at hscan
      obtain ⟨rfl, rfl, rfl⟩ := hscan
      exact hne rfl
    exact @startsClean_of_suffix { st.input with
      buffer := [], pendingKittyPrintableCodepoint := none } hpaste rfl _ _
      ((intake_spec _ _).1.trans hsuffix) (h.noStart hpaste)

theorem onTimer_spec {st : StdinStream D} (h : Kept st.input) (kind : StdinTimer) :
    (∀ event ∈ (st.onTimer kind).2, event.Clean) ∧ Kept (st.onTimer kind).1.input := by
  cases kind with
  | leadByte => exact ⟨st.emitPendingLead_spec.2, st.emitPendingLead_spec.1.kept h⟩
  | quarantine =>
    have hsame : SameInput st st.endSgrQuarantine := ⟨Eq.refl _, Eq.refl _, Eq.refl _⟩
    exact ⟨forall_mem_nil _, hsame.kept h⟩
  | flush =>
    simp only [onTimer]
    split
    · exact beginSgrQuarantine_spec h
    · obtain ⟨hclean, hkept⟩ := flush_spec h
      exact ⟨(emitAll_clean_iff _ _).mpr hclean, hkept.buffer, hkept.noEnd, hkept.noStart⟩

theorem fire_spec (h : Kept st.input) (handle : Nat) :
    (∀ event ∈ (st.fire handle).2, event.Clean) ∧ Kept (st.fire handle).1.input := by
  unfold fire
  split
  · exact ⟨forall_mem_nil _, h⟩
  · exact @onTimer_spec D { st with timers := st.timers.filter (·.1 ≠ handle) } h _

/-- A step emits no malformed report just when its text is clean. -/
theorem act_spec (h : Kept st.input) (op : StdinOp) :
    ((∀ event ∈ (st.act dec op).2, event.Clean) ↔ StartsClean st.input (st.reaching dec op)) ∧
      Kept (st.act dec op).1.input := by
  cases op with
  | bytes data => exact processBytes_spec dec h data
  | text data => exact processText_spec h data
  | flush =>
    obtain ⟨hclean, hkept⟩ := flush_spec h
    exact ⟨iff_of_true (forall_mem_map.mpr hclean) (startsClean_nil h), hkept⟩
  | fire handle =>
    obtain ⟨hclean, hkept⟩ := fire_spec h handle
    exact ⟨iff_of_true hclean (startsClean_nil h), hkept⟩

/-- Over any run: the events are clean just when they were and the text of each step is. -/
theorem run_clean_iff {s : StdinStream D × List StdinEvent} (h : Kept s.1.input)
    (ops : List StdinOp) : (∀ event ∈ (Runs.run (step dec) s ops).2, event.Clean) ↔
      (∀ event ∈ s.2, event.Clean) ∧ Runs.Meets (step dec) (OpClean dec) s ops := by
  induction ops generalizing s with
  | nil => exact (and_iff_left trivial).symm
  | cons op ops ih =>
    obtain ⟨hclean, hkept⟩ := act_spec dec h op
    rw [Runs.run_cons, @ih (step dec s op) hkept]
    change (∀ event ∈ s.2 ++ (s.1.act dec op).2, event.Clean) ∧ _ ↔ _
    rw [forall_mem_append, hclean, and_assoc]
    rfl

/-- Whatever is called and whichever timers fire: every event that begins like a mouse report is
one, just when no call brings a malformed one before the start of a paste to the splitter. -/
theorem reports_clean_iff (dec : StringDecoder D) (ops : List StdinOp) :
    (∀ sequence, StdinEvent.data sequence ∈ (Runs.run (step dec) (start dec, []) ops).2 →
      isSgrMousePrefix sequence = true → isSgrMouseSequence sequence = true) ↔
    Runs.Meets (step dec) (OpClean dec) (start dec, []) ops := by
  have hrun := run_clean_iff dec (s := (start dec, [])) kept_initial ops
  refine Iff.trans ⟨fun h event hevent => ?_, fun h sequence hsequence hprefix => ?_⟩
    (hrun.trans (and_iff_right (forall_mem_nil _)))
  · cases event with
    | paste => trivial
    | data sequence =>
      change (isSgrMousePrefix sequence && !isSgrMouseSequence sequence) = false
      cases hprefix : isSgrMousePrefix sequence with
      | false => rfl
      | true => rw [h sequence hevent hprefix]; rfl
  · have hclean : (isSgrMousePrefix sequence && !isSgrMouseSequence sequence) = false :=
      h _ hsequence
    simpa [ hprefix] using hclean

theorem cut_off_report_emitted :
    ¬ ∀ sequence, StdinEvent.data sequence ∈ (Runs.run (step bytewise) (start bytewise, [])
        [.text (ESC :: js "[<35;2" ++ BRACKETED_PASTE_START)]).2 →
      isSgrMousePrefix sequence = true → isSgrMouseSequence sequence = true := by
  intro h
  have := h (ESC :: js "[<35;2") (by decide) (by decide)
  exact absurd this (by decide)

end StdinStream
end GajaeCode
