import GajaeCode.OutputSink
import GajaeCode.Tokenizer

/-! # Bracketed paste framing

`packages/tui/src/bracketed-paste.ts`: the text between a start and an end marker is given back
as pasted content, with what came before and after it.  A part of a start marker is held back
until more comes, and a frame that takes too long, grows too large or is broken off with an
escape is given back as it is.

No exit loses text: what is read is what is given back or pending, with the markers that were
recognised between its pieces (`FramePart`).  Times are of any type with a difference.
-/
namespace GajaeCode
open JsString List

namespace BracketedPaste

def ESC : CodeUnit := 0x1b

def PASTE_START : JsString := ESC :: js "[200~"

def PASTE_END : JsString := ESC :: js "[201~"

def BRACKETED_PASTE_FRAME_TIMEOUT_MS : Nat := 1000

def BRACKETED_PASTE_FRAME_MAX_BYTES : Nat := 1024 * 1024

inductive PasteResult where
  | unhandled
  | handled (leading : JsString) (pasteContent : Option JsString) (remaining : JsString)
  deriving DecidableEq

/-- The longest proper part of the start marker that the value ends with, of at most `length`
units. -/
def partialStartFrom (value : JsString) : Nat → Nat
  | 0 => 0
  | length + 1 =>
    if PASTE_START.take (length + 1) <:+ value then length + 1
    else partialStartFrom value length

def partialStartSuffixLength (value : JsString) : Nat :=
  partialStartFrom value (min value.length (PASTE_START.length - 1))

end BracketedPaste

open BracketedPaste

structure BracketedPasteHandler (N : Type) where
  buffer : JsString
  leading : JsString
  active : Bool
  pendingSince : Option N

namespace BracketedPasteHandler
variable {N : Type}

def reset : BracketedPasteHandler N := ⟨[], [], false, none⟩

def hasPendingFrame (h : BracketedPasteHandler N) : Bool :=
  h.active || h.buffer ≠ [] || h.leading ≠ []

/-- `#flushBuffered`; it resets the handler. -/
def flushBuffered (h : BracketedPasteHandler N) : JsString :=
  if h.active then h.leading ++ PASTE_START ++ h.buffer else h.leading ++ h.buffer

def flushActive (h : BracketedPasteHandler N) (remaining : JsString) :
    BracketedPasteHandler N × PasteResult :=
  (reset, .handled h.leading (some h.buffer) remaining)

/-- A frame is given up: what is pending goes before the data. -/
def giveUp (h : BracketedPasteHandler N) (data : JsString) :
    BracketedPasteHandler N × PasteResult :=
  if h.active then h.flushActive data
  else (reset, .handled (h.flushBuffered ++ data) none [])

/-- The rest of a call, in a frame. -/
def readFrame (h : BracketedPasteHandler N) : BracketedPasteHandler N × PasteResult :=
  match splitFirst PASTE_END h.buffer with
  | none =>
    if BRACKETED_PASTE_FRAME_MAX_BYTES <
        byteLength h.leading + byteLength PASTE_START + byteLength h.buffer then
      h.flushActive []
    else (h, .handled [] none [])
  | some (pasteContent, remaining) => (reset, .handled h.leading (some pasteContent) remaining)

/-- No start marker has been found in `combined`. -/
def holdBack (h : BracketedPasteHandler N) (combined : JsString) (now : N) :
    BracketedPasteHandler N × PasteResult :=
  let partialLength := partialStartSuffixLength combined
  if 0 < partialLength then
    let nextLeading := h.leading ++ combined.take (combined.length - partialLength)
    let nextBuffer := combined.drop (combined.length - partialLength)
    if BRACKETED_PASTE_FRAME_MAX_BYTES < byteLength nextLeading + byteLength nextBuffer then
      (reset, .handled (nextLeading ++ nextBuffer) none [])
    else
      (⟨nextBuffer, nextLeading, h.active, h.pendingSince.or (some now)⟩, .handled [] none [])
  else if h.hasPendingFrame then (reset, .handled (h.leading ++ combined) none [])
  else (⟨[], h.leading, h.active, h.pendingSince⟩, .unhandled)

variable [Sub N] [LE N] [DecidableLE N] [NatCast N]

/-- A frame has been pending for too long. -/
def timedOut (h : BracketedPasteHandler N) (now : N) : Bool :=
  h.hasPendingFrame && h.pendingSince.any fun since =>
    ((BRACKETED_PASTE_FRAME_TIMEOUT_MS : Nat) : N) ≤ now - since

def process (h : BracketedPasteHandler N) (data : JsString) (now : N) :
    BracketedPasteHandler N × PasteResult :=
  if h.timedOut now then h.giveUp data
  else if h.hasPendingFrame ∧ data = [ESC] then h.giveUp data
  else if h.active then readFrame ⟨h.buffer ++ data, h.leading, h.active, h.pendingSince⟩
  else
    let combined := h.buffer ++ data
    match splitFirst PASTE_START combined with
    | none => h.holdBack combined now
    | some (before, after) =>
      readFrame ⟨after, h.leading ++ before, true, h.pendingSince.or (some now)⟩

end BracketedPasteHandler

namespace BracketedPaste

inductive FrameMarker where
  | start | stop
  deriving DecidableEq

/-- A text, or a marker that was recognised. -/
inductive FramePart where
  | text (t : JsString)
  | marker (m : FrameMarker)

/-- The pieces as they were read. -/
def source : List FramePart → JsString
  | [] => []
  | .text t :: pieces => t ++ source pieces
  | .marker .start :: pieces => PASTE_START ++ source pieces
  | .marker .stop :: pieces => PASTE_END ++ source pieces

/-- The pieces without the markers. -/
def texts : List FramePart → JsString
  | [] => []
  | .text t :: pieces => t ++ texts pieces
  | .marker _ :: pieces => texts pieces

def markers : List FramePart → List FrameMarker
  | [] => []
  | .text _ :: pieces => markers pieces
  | .marker m :: pieces => m :: markers pieces

theorem source_append (ps ps' : List FramePart) : source (ps ++ ps') = source ps ++ source ps' := by
  induction ps with
  | nil => rfl
  | cons p ps ih => rcases p with t | _ | _ <;> simp [source, ih]

theorem texts_append (ps ps' : List FramePart) : texts (ps ++ ps') = texts ps ++ texts ps' := by
  induction ps with
  | nil => rfl
  | cons p ps ih => cases p <;> simp [texts, ih]

theorem markers_append (ps ps' : List FramePart) :
    markers (ps ++ ps') = markers ps ++ markers ps' := by
  induction ps with
  | nil => rfl
  | cons p ps ih => cases p <;> simp [markers, ih]

/-- What a call gives its caller: the text of the result, or the data that it did not handle. -/
def given (data : JsString) : PasteResult → JsString
  | .unhandled => data
  | .handled leading pasteContent remaining => leading ++ pasteContent.getD [] ++ remaining

def stopsIn (text : JsString) : List FrameMarker := if PASTE_END <:+: text then [.stop] else []

end BracketedPaste

namespace BracketedPasteHandler
variable {N : Type}
variable {h : BracketedPasteHandler N}

/-- What is pending, with the start marker of a frame. -/
def pending (h : BracketedPasteHandler N) : List FramePart :=
  if h.active then [.text h.leading, .marker .start, .text h.buffer]
  else [.text h.leading, .text h.buffer]

@[simp] theorem source_pending_reset : source (reset : BracketedPasteHandler N).pending = [] := rfl

@[simp] theorem markers_pending_reset :
    markers (reset : BracketedPasteHandler N).pending = [] := rfl

theorem pending_of_active (hactive : h.active = true) :
    h.pending = [.text h.leading, .marker .start, .text h.buffer] :=
  if_pos hactive

theorem pending_of_inactive (hactive : ¬ h.active = true) :
    h.pending = [.text h.leading, .text h.buffer] :=
  if_neg hactive

theorem texts_pending (h : BracketedPasteHandler N) : texts h.pending = h.leading ++ h.buffer := by
  unfold pending
  split_ifs <;> simp [texts]

/-! ## A call -/

/-- Pieces of what was pending or read are given back, and the others are pending. -/
structure Passes (read : JsString) (found : List FrameMarker)
    (r : BracketedPasteHandler N × PasteResult) (data : JsString)
    (out : List FramePart) : Prop where
  source : source out ++ source r.1.pending = read
  texts : texts out = given data r.2
  markers : markers out ++ markers r.1.pending = found

theorem passes_readFrame (hactive : h.active = true) (data : JsString) :
    ∃ out, Passes (source h.pending) (.start :: stopsIn h.buffer) h.readFrame data out := by
  have hpending := pending_of_active hactive
  unfold readFrame
  cases hend : splitFirst PASTE_END h.buffer with
  | none =>
    have hnone : stopsIn h.buffer = [] := if_neg (splitFirst_eq_none.mp hend)
    dsimp only
    rw [hnone]
    split_ifs
    · refine ⟨h.pending, ?_, ?_, ?_⟩
      · rw [flushActive, source_pending_reset, append_nil]
      · rw [hpending]
        simp [flushActive, texts, given]
      · rw [hpending, flushActive, markers_pending_reset]
        rfl
    · exact ⟨[], rfl, rfl, by rw [hpending]; rfl⟩
  | some split =>
    obtain ⟨paste, remaining⟩ := split
    obtain ⟨hbuffer, -⟩ := (splitFirst_eq_some (by decide)).mp hend
    have hstop : stopsIn h.buffer = [.stop] :=
      if_pos ⟨paste, remaining, by rw [hbuffer, append_assoc]⟩
    dsimp only
    refine ⟨[.text h.leading, .marker .start, .text paste, .marker .stop, .text remaining],
      ?_, ?_, ?_⟩
    · rw [hpending, hbuffer]
      simp [source]
    · simp [texts, given]
    · rw [hstop, markers_pending_reset]
      rfl

theorem passes_giveUp (h : BracketedPasteHandler N) (data : JsString) :
    ∃ out, Passes (source h.pending ++ data) (markers h.pending) (h.giveUp data) data out := by
  refine ⟨h.pending ++ [.text data], ?_, ?_, ?_⟩
  · have hreset : (h.giveUp data).1 = reset := by
      unfold giveUp
      split_ifs <;> rfl
    rw [hreset, source_append, source_pending_reset]
    simp [source]
  · unfold giveUp flushBuffered
    split_ifs with hactive
    · rw [pending_of_active hactive]
      simp [flushActive, texts, given]
    · rw [pending_of_inactive hactive]
      simp [texts, given]
  · have hreset : (h.giveUp data).1 = reset := by
      unfold giveUp
      split_ifs <;> rfl
    rw [hreset, markers_append, markers_pending_reset]
    simp [markers]

theorem passes_holdBack (hactive : ¬ h.active = true) (data : JsString) (now : N) :
    ∃ out, Passes (source h.pending ++ data) [] (h.holdBack (h.buffer ++ data) now) data out := by
  have hread : source h.pending ++ data = h.leading ++ (h.buffer ++ data) := by
    rw [pending_of_inactive hactive]
    simp [source]
  have hfalse : h.active = false := by simpa using hactive
  rw [hread]
  unfold holdBack
  dsimp only
  rw [hfalse]
  split_ifs with hpartial hsize hheld
  · refine ⟨[.text (h.leading ++ (h.buffer ++ data))], ?_, ?_, rfl⟩
    · rw [source_pending_reset]
      simp [source]
    · simp [texts, given]
  · refine ⟨[], ?_, rfl, rfl⟩
    -- the part that is held back is the end of what was read
    simp [pending, source]
  · refine ⟨[.text (h.leading ++ (h.buffer ++ data))], ?_, ?_, rfl⟩
    · rw [source_pending_reset]
      simp [source]
    · simp [texts, given]
  · have hleading : h.leading = [] := by
      by_contra hne
      exact hheld (by simp [hasPendingFrame, hne])
    have hbuffer : h.buffer = [] := by
      by_contra hne
      exact hheld (by simp [hasPendingFrame, hne])
    refine ⟨[.text data], ?_, ?_, rfl⟩
    · simp [pending, source, hleading, hbuffer]
    · simp [texts, given]

variable [Sub N] [LE N] [DecidableLE N] [NatCast N]

/-- The markers that a call recognises: an end marker in a frame, a start marker outside of one,
and an end marker behind that. -/
def recognises (h : BracketedPasteHandler N) (data : JsString) (now : N) : List FrameMarker :=
  if h.timedOut now ∨ h.hasPendingFrame ∧ data = [ESC] then []
  else if h.active then stopsIn (h.buffer ++ data)
  else
    match splitFirst PASTE_START (h.buffer ++ data) with
    | none => []
    | some (_, after) => .start :: stopsIn after

/-- **A call passes on what was pending and read, with the markers it recognises.** -/
theorem passes_process (h : BracketedPasteHandler N) (data : JsString) (now : N) :
    ∃ out, Passes (source h.pending ++ data) (markers h.pending ++ h.recognises data now)
      (h.process data now) data out := by
  unfold process recognises
  by_cases htime : h.timedOut now = true
  · rw [if_pos htime, if_pos (.inl htime), append_nil]
    exact passes_giveUp h data
  rw [if_neg htime]
  by_cases hescape : h.hasPendingFrame = true ∧ data = [ESC]
  · rw [if_pos hescape, if_pos (.inr hescape), append_nil]
    exact passes_giveUp h data
  rw [if_neg hescape, if_neg (not_or.mpr ⟨htime, hescape⟩)]
  by_cases hactive : h.active = true
  · rw [if_pos hactive, if_pos hactive, pending_of_active hactive]
    have hframe := passes_readFrame (h := ⟨h.buffer ++ data, h.leading, h.active, h.pendingSince⟩)
      hactive data
    rw [pending_of_active (h := ⟨h.buffer ++ data, h.leading, h.active, h.pendingSince⟩)
      hactive] at hframe
    simpa [source, markers] using hframe
  · rw [if_neg hactive, if_neg hactive]
    dsimp only
    cases hstart : splitFirst PASTE_START (h.buffer ++ data) with
    | none =>
      have hmarkers : markers h.pending ++ [] = [] := by
        rw [pending_of_inactive hactive]
        rfl
      rw [hmarkers]
      exact passes_holdBack hactive data now
    | some split =>
      obtain ⟨before, after⟩ := split
      obtain ⟨hcombined, -⟩ := (splitFirst_eq_some (by decide)).mp hstart
      have hframe := passes_readFrame
        (h := ⟨after, h.leading ++ before, true, h.pendingSince.or (some now)⟩) rfl data
      have hread : source h.pending ++ data = source (⟨after, h.leading ++ before, true,
          h.pendingSince.or (some now)⟩ : BracketedPasteHandler N).pending := by
        rw [pending_of_inactive hactive]
        simp [source, pending, hcombined]
      have hmarkers : markers h.pending = [] := by
        rw [pending_of_inactive hactive]
        rfl
      rw [hread, hmarkers]
      exact hframe

def after (h : BracketedPasteHandler N) : List (JsString × N) → BracketedPasteHandler N
  | [] => h
  | (data, now) :: calls => (h.process data now).1.after calls

/-- What the calls give, one after the other. -/
def output (h : BracketedPasteHandler N) : List (JsString × N) → JsString
  | [] => []
  | (data, now) :: calls =>
    given data (h.process data now).2 ++ (h.process data now).1.output calls

/-- The markers that they recognise. -/
def recognised (h : BracketedPasteHandler N) : List (JsString × N) → List FrameMarker
  | [] => []
  | (data, now) :: calls => h.recognises data now ++ (h.process data now).1.recognised calls

theorem passes_calls (h : BracketedPasteHandler N) (calls : List (JsString × N)) :
    ∃ out, source (out ++ (h.after calls).pending) =
        source h.pending ++ (calls.map Prod.fst).flatten ∧ texts out = h.output calls ∧
      markers (out ++ (h.after calls).pending) = markers h.pending ++ h.recognised calls := by
  induction calls generalizing h with
  | nil => exact ⟨[], by simp [after], rfl, by simp [after, recognised]⟩
  | cons call calls ih =>
    obtain ⟨data, now⟩ := call
    obtain ⟨out, hsource, htexts, hmarkers⟩ := passes_process h data now
    obtain ⟨rest, hrest, hrestTexts, hrestMarkers⟩ := ih (h.process data now).1
    refine ⟨out ++ rest, ?_, ?_, ?_⟩
    · rw [after, append_assoc, source_append, hrest, ← append_assoc, hsource]
      simp
    · rw [texts_append, htexts, hrestTexts, output]
    · rw [after, append_assoc, markers_append, hrestMarkers, ← append_assoc, hmarkers,
        recognised, append_assoc]

/-- **Framing conserves text**: what the calls were given is, piece by piece and in order, what
they gave back and what is still pending, and between the pieces the markers that were
recognised. -/
theorem framing_conserves (calls : List (JsString × N)) :
    ∃ pieces, source pieces = (calls.map Prod.fst).flatten ∧
      texts pieces = (reset : BracketedPasteHandler N).output calls ++
        (reset.after calls).leading ++ (reset.after calls).buffer ∧
      markers pieces = (reset : BracketedPasteHandler N).recognised calls := by
  obtain ⟨out, hsource, htexts, hmarkers⟩ := passes_calls reset calls
  refine ⟨out ++ (reset.after calls).pending, hsource, ?_, hmarkers⟩
  rw [texts_append, htexts, texts_pending, append_assoc]

/-- A start marker in two parts, and an end marker with text behind it. -/
example : (reset : BracketedPasteHandler Nat).output
    [(js "a" ++ PASTE_START.take 3, 0), (PASTE_START.drop 3 ++ js "b", 1),
      (js "c" ++ PASTE_END ++ js "d", 2)] = js "abcd" := by decide

end BracketedPasteHandler
end GajaeCode
