import GajaeCode.ToolCallHealing

/-! # What healing shows of a text

The text that `ToolCallHealing` heals, seen as its markers and the characters between them.
A character outside all sections should be shown, and nothing from inside a section.  The end
of a section leaves `#inCall` as it is, so a call that is still open then takes the text after
the section, too (`eatsOnlySections_iff`).
-/
namespace GajaeCode
open JsString List

namespace ToolCallHealing

open ToolCallHealing.Piece

/-- The pieces of a text after its first `skip` characters. -/
def piecesFrom : Nat → JsString → List Piece
  | _, [] => []
  | skip + 1, _ :: rest => piecesFrom skip rest
  | 0, ch :: rest => front ch rest :: piecesFrom ((front ch rest).text.length - 1) rest

def pieces (text : JsString) : List Piece := piecesFrom 0 text

/-- Where a piece stands: whether the last marker of a section before it is a begin, and whether
the last marker of a call that a section holds is one. -/
structure Place where
  inSection : Bool
  inCall : Bool

def Place.next (at_ : Place) : Piece → Place
  | sectionBegin => { at_ with inSection := true }
  | sectionEnd => { at_ with inSection := false }
  | callBegin => { at_ with inCall := at_.inCall || at_.inSection }
  | callEnd => { at_ with inCall := at_.inCall && !at_.inSection }
  | _ => at_

/-- The place after some pieces. -/
def place (ps : List Piece) : Place := ps.foldl Place.next ⟨false, false⟩

section Healer
variable (roundTrip : JsString → Option JsString)

def healPieces (s : State) : List Piece → State × JsString
  | [] => (s, [])
  | p :: ps =>
    let (s', shown) := healPiece roundTrip s p
    let (s'', more) := healPieces s' ps
    (s'', shown ++ more)

variable {roundTrip} {s : State}

theorem healPieces_append (ps qs : List Piece) :
    healPieces roundTrip s (ps ++ qs) =
      ((healPieces roundTrip (healPieces roundTrip s ps).1 qs).1,
        (healPieces roundTrip s ps).2 ++
          (healPieces roundTrip (healPieces roundTrip s ps).1 qs).2) := by
  induction ps generalizing s with
  | nil => rfl
  | cons p ps ih => simp only [cons_append, healPieces, ih, append_assoc]

/-- A piece of text is not shown while a call takes it or a section is open. -/
theorem healPieces_chars (text : JsString) :
    (healPieces roundTrip s (text.map char)).2 = (if s.inCall || s.inSection then [] else text) ∧
      (healPieces roundTrip s (text.map char)).1.completed = s.completed := by
  induction text generalizing s with
  | nil => simp [healPieces]
  | cons ch text ih =>
    obtain ⟨hshown, hcompleted⟩ := @ih (healPiece roundTrip s (char ch)).1
    rw [map_cons, healPieces]
    dsimp only
    rw [hshown, hcompleted]
    cases hcall : s.inCall <;> cases hsec : s.inSection <;> cases hargs : s.inArgs <;>
      simp [healPiece, hcall, hsec, hargs]

end Healer

section Pieces
variable {ch : CodeUnit} {text rest : JsString}

theorem piecesFrom_eq (skip : Nat) (text : JsString) :
    piecesFrom skip text = pieces (text.drop skip) := by
  induction text generalizing skip with
  | nil => cases skip <;> rfl
  | cons ch rest ih =>
    cases skip with
    | zero => rfl
    | succ skip => exact ih skip

theorem pieces_cons : pieces (ch :: rest) =
    front ch rest :: pieces ((ch :: rest).drop (front ch rest).text.length) := by
  obtain ⟨n, hn⟩ := Nat.exists_eq_add_of_lt (length_text_pos (front ch rest))
  rw [pieces, piecesFrom, piecesFrom_eq, hn, Nat.zero_add, Nat.add_sub_cancel, drop_succ_cons]

theorem pieces_induction {I : JsString → Prop} (nil : I [])
    (cons : ∀ ch rest, I ((ch :: rest).drop (front ch rest).text.length) → I (ch :: rest))
    (text : JsString) : I text := by
  induction hn : text.length using Nat.strongRecOn generalizing text with
  | _ n ih =>
    cases text with
    | nil => exact nil
    | cons ch rest =>
      have hpos := length_text_pos (front ch rest)
      rw [length_cons] at hn
      exact cons ch rest (ih _ (by rw [length_drop, length_cons]; omega) _ rfl)

theorem flatMap_text_pieces (text : JsString) : (pieces text).flatMap Piece.text = text := by
  induction text using pieces_induction with
  | nil => rfl
  | cons ch rest ih =>
    rw [pieces_cons, flatMap_cons, ih]
    exact prefix_iff_eq_append.mp (List.isPrefixOf_iff_prefix.mp front_isPrefixOf)

theorem not_isPrefixOf_drop : ∀ token ∈ TOKENS, ∀ n < token.length, ∀ token' ∈ TOKENS,
    token'.isPrefixOf (token.dropLast.drop n) = false := by
  decide +kernel

theorem pieces_of_no_token
    (h : ∀ tail, tail <:+ text → ∀ token ∈ TOKENS, token.isPrefixOf tail = false) :
    pieces text = text.map char := by
  induction text with
  | nil => rfl
  | cons ch rest ih =>
    obtain ⟨hmem₁, hmem₂, hmem₃, hmem₄, hmem₅⟩ := mem_TOKENS
    have hnone := h _ (suffix_refl _)
    have hfront : front ch rest = char ch := by
      rw [front, hnone _ hmem₁, hnone _ hmem₂, hnone _ hmem₃, hnone _ hmem₄, hnone _ hmem₅]
      rfl
    rw [pieces_cons, hfront, map_cons]
    exact congrArg _ (ih fun tail htail => h tail (htail.trans (suffix_cons _ _)))

/-- What is held back is characters, if nothing follows. -/
theorem pieces_of_partial (h : startsWithPartialToken text = true) :
    pieces text = text.map char := by
  cases text with
  | nil => rfl
  | cons ch rest =>
    obtain ⟨token, htoken, hlt, hprefix⟩ := (startsWithPartialToken_iff (cons_ne_nil _ _)).mp h
    apply pieces_of_no_token
    rintro tail ⟨skipped, hskipped⟩ token' htoken'
    have hdrop := dropLast_prefix token
    obtain ⟨more, hmore⟩ : ch :: rest <+: token.dropLast :=
      prefix_of_prefix_length_le hprefix hdrop (by rw [length_dropLast]; omega)
    have hstart : skipped.length < token.length := by
      rw [← hskipped, length_append] at hlt
      omega
    have hnot := not_isPrefixOf_drop token htoken _ hstart token' htoken'
    rw [← hmore, ← hskipped, append_assoc, drop_left] at hnot
    rw [← Bool.not_eq_true, List.isPrefixOf_iff_prefix] at hnot ⊢
    exact fun hat => hnot (hat.trans (prefix_append _ _))

end Pieces

section Shown
variable {roundTrip : JsString → Option JsString}

theorem result_run (s : State) (text : JsString) :
    (result ((consumer roundTrip).run s text)).visible =
        (healPieces roundTrip s (pieces text)).2 ∧
      (result ((consumer roundTrip).run s text)).completed =
        (healPieces roundTrip s (pieces text)).1.completed := by
  induction s, text using Consumer.run_induction (c := consumer roundTrip) with
  | waits s text h =>
    have hpieces : pieces text = text.map char := by
      cases text with
      | nil => rfl
      | cons ch rest =>
        apply pieces_of_partial
        by_contra hpartial
        have hstep : consumeStep roundTrip s (ch :: rest) = none := h
        rw [consumeStep_eq (Bool.not_eq_true _ ▸ hpartial)] at hstep
        cases hstep
    rw [Consumer.run_none h, hpieces, (healPieces_chars text).1, (healPieces_chars text).2]
    exact ⟨rfl, rfl⟩
  | takes s text s' out rest h ih =>
    cases text with
    | nil => cases h
    | cons ch tail =>
      have hstep : consumeStep roundTrip s (ch :: tail) = some (s', out, rest) := h
      have hpartial : startsWithPartialToken (ch :: tail) = false := by
        by_contra hpartial
        rw [consumeStep, if_pos (Bool.not_eq_false _ ▸ hpartial)] at hstep
        cases hstep
      rw [consumeStep_eq hpartial, Option.some.injEq, Prod.mk.injEq, Prod.mk.injEq] at hstep
      obtain ⟨rfl, rfl, rfl⟩ := hstep
      rw [Consumer.run_some h, pieces_cons, healPieces]
      dsimp only
      rw [← ih.1, ← ih.2]
      simp only [result, append_assoc, and_self]

/-- The fields after some pieces. -/
def after (roundTrip : JsString → Option JsString) (ps : List Piece) : State :=
  (healPieces roundTrip State.initial ps).1

theorem heal_eq (chunks : List JsString) :
    (heal roundTrip chunks).visible =
        (healPieces roundTrip State.initial (pieces chunks.flatten)).2 ∧
      (heal roundTrip chunks).completed = (after roundTrip (pieces chunks.flatten)).completed := by
  have hwaits : consumeStep roundTrip ToolCallHealer.new.state ToolCallHealer.new.buffer = none :=
    rfl
  rw [heal, healFrom_eq hwaits, Consumer.feedAll_eq hwaits]
  exact result_run _ _

theorem after_append (ps : List Piece) (p : Piece) :
    after roundTrip (ps ++ [p]) = (healPiece roundTrip (after roundTrip ps) p).1 := by
  rw [after, healPieces_append]
  rfl

variable {p : Piece}

theorem after_place (ps : List Piece) :
    (⟨(after roundTrip ps).inSection, (after roundTrip ps).inCall⟩ : Place) = place ps := by
  induction ps using reverseRecOn with
  | nil => rfl
  | append_singleton ps p ih =>
    rw [after_append, place, foldl_append, ← place, ← ih]
    generalize after roundTrip ps = s
    cases hsec : s.inSection <;> cases hcall : s.inCall <;> cases hargs : s.inArgs <;>
      cases p <;> simp [healPiece, Place.next, finalizeCall, hsec, hcall, hargs]

/-- A call begins in a section after `before`, and no marker in a section begins or ends one in
`span`. -/
def OneSpan (before span : List Piece) : Prop :=
  (place before).inSection = true ∧
    ∀ b p a, span = b ++ p :: a → p = callBegin ∨ p = callEnd →
      (place (before ++ callBegin :: b)).inSection = false

/-- The id and the arguments of the call are the text between one begin and one end marker. -/
def FromOneSpan (roundTrip : JsString → Option JsString) (ps : List Piece)
    (call : HealedToolCall) : Prop :=
  ∃ before idPart argPart rest,
    ps = before ++ callBegin :: (idPart ++ argPart) ++ callEnd :: rest ∧
    OneSpan before (idPart ++ argPart) ∧
    (place (before ++ callBegin :: (idPart ++ argPart))).inSection = true ∧
    (finalizeCall roundTrip { State.initial with
      pendingId := idPart.flatMap chars
      pendingArgs := argPart.flatMap chars }).completed = [call]

/-- What the pending call has gathered is the text since its begin marker. -/
def OpenSpan (ps : List Piece) (s : State) : Prop :=
  ∃ before idPart argPart,
    ps = before ++ callBegin :: (idPart ++ argPart) ∧ OneSpan before (idPart ++ argPart) ∧
    s.pendingId = idPart.flatMap chars ∧ s.pendingArgs = argPart.flatMap chars ∧
    (s.inArgs = false → argPart = [])

/-- A piece that neither begins nor ends a call in a section. -/
theorem OpenSpan.append {ps : List Piece} {s : State} (h : OpenSpan ps s) (hcall : s.inCall = true)
    (hsec : (place ps).inSection = s.inSection)
    (hother : p = callBegin ∨ p = callEnd → s.inSection = false) :
    OpenSpan (ps ++ [p]) (healPiece roundTrip s p).1 := by
  obtain ⟨before, idPart, argPart, rfl, hspan, hid, hargs, hnoArgs⟩ := h
  have hspan' : OneSpan before (idPart ++ argPart ++ [p]) := by
    refine ⟨hspan.1, fun b q a hsplit hmark => ?_⟩
    rcases eq_nil_or_concat a with rfl | ⟨a, last, rfl⟩
    · obtain ⟨rfl, hlast⟩ := append_inj' hsplit rfl
      cases hlast
      rw [hsec]
      exact hother hmark
    · rw [concat_eq_append, ← cons_append, ← append_assoc] at hsplit
      exact hspan.2 b q a (append_inj' hsplit rfl).1 hmark
  by_cases harg : s.inArgs = true
  · refine ⟨before, idPart, argPart ++ [p], by simp, by rwa [← append_assoc], ?_⟩
    cases hs : s.inSection <;> cases p <;> simp_all [healPiece, chars]
  · rw [Bool.not_eq_true] at harg
    obtain rfl := hnoArgs harg
    rw [append_nil] at hspan'
    refine ⟨before, idPart ++ [p], [], by simp, by rwa [append_nil], ?_⟩
    cases hs : s.inSection <;> cases p <;> simp_all [healPiece, chars]

theorem FromOneSpan.append {ps : List Piece} {call : HealedToolCall}
    (h : FromOneSpan roundTrip ps call) (p : Piece) : FromOneSpan roundTrip (ps ++ [p]) call := by
  obtain ⟨before, idPart, argPart, rest, rfl, hrest⟩ := h
  exact ⟨before, idPart, argPart, rest ++ [p], by simp, hrest⟩

/-- Every call comes from one span, and so does what is gathered for the next one. -/
theorem after_spans (ps : List Piece) :
    (∀ call ∈ (after roundTrip ps).completed, FromOneSpan roundTrip ps call) ∧
      ((after roundTrip ps).inCall = true → OpenSpan ps (after roundTrip ps)) := by
  induction ps using reverseRecOn with
  | nil => exact ⟨forall_mem_nil _, fun h => absurd h Bool.false_ne_true⟩
  | append_singleton ps p ih =>
    obtain ⟨hcalls, hopen⟩ := ih
    have hplace : (place ps).inSection = (after roundTrip ps).inSection := by rw [← after_place]
    rw [after_append]
    generalize after roundTrip ps = s at hcalls hopen hplace
    have hold : ∀ call ∈ s.completed, FromOneSpan roundTrip (ps ++ [p]) call :=
      fun call hcall => (hcalls call hcall).append p
    by_cases hmark : (p = callBegin ∨ p = callEnd) ∧ s.inSection = true
    · obtain ⟨rfl | rfl, hsec⟩ := hmark
      · refine ⟨by simpa [healPiece, hsec] using hold, fun _ => ?_⟩
        refine ⟨ps, [], [], rfl, ⟨hplace.trans hsec, fun b p a hsplit => ?_⟩, ?_⟩
        · simp at hsplit
        · simp [healPiece, hsec]
      · cases hcall : s.inCall with
        | false => simpa [healPiece, hsec, hcall] using hold
        | true =>
          obtain ⟨before, idPart, argPart, rfl, hspan, hid, hargs, -⟩ := hopen hcall
          have hstep : healPiece roundTrip s callEnd = (finalizeCall roundTrip s, []) := by
            simp [healPiece, hsec, hcall]
          rw [hstep]
          refine ⟨fun call hmem => ?_, fun h => absurd h Bool.false_ne_true⟩
          rcases mem_append.mp hmem with hmem | hmem
          · exact hold call hmem
          · rw [mem_singleton] at hmem
            refine ⟨before, idPart, argPart, [], rfl, hspan, hplace.trans hsec, ?_⟩
            rw [hmem, ← hid, ← hargs]
            rfl
    · have hother : p = callBegin ∨ p = callEnd → s.inSection = false :=
        fun hcallMark => Bool.eq_false_iff.mpr fun hsec => hmark ⟨hcallMark, hsec⟩
      have hsame : (healPiece roundTrip s p).1.completed = s.completed ∧
          (healPiece roundTrip s p).1.inCall = s.inCall := by
        cases hcall : s.inCall <;> cases hargs : s.inArgs <;> cases hsec : s.inSection <;>
          cases p <;> simp_all [healPiece]
      rw [hsame.1, hsame.2]
      exact ⟨hold, fun hcall => (hopen hcall).append hcall hplace hother⟩

/-- What is shown is what the pieces of the text add one after the other: a character outside all
sections adds itself, and nothing is added inside a section.  Every call comes from one span. -/
structure EatsOnlySections (roundTrip : JsString → Option JsString) (chunks : List JsString) :
    Prop where
  text : (pieces chunks.flatten).flatMap Piece.text = chunks.flatten
  visible : (heal roundTrip chunks).visible =
    (healPieces roundTrip State.initial (pieces chunks.flatten)).2
  piece : ∀ before p rest, pieces chunks.flatten = before ++ p :: rest →
    ((place before).inSection = true → (healPiece roundTrip (after roundTrip before) p).2 = []) ∧
      ((place before).inSection = false → ∀ ch, p = char ch →
        (healPiece roundTrip (after roundTrip before) p).2 = [ch])
  calls : ∀ call ∈ (heal roundTrip chunks).completed,
    FromOneSpan roundTrip (pieces chunks.flatten) call

/-- No character stands outside all sections while a call is open, and no end marker of a call
inside a section while none is. -/
def CallsEnd (ps : List Piece) : Prop :=
  ∀ before p rest, ps = before ++ p :: rest →
    (∀ ch, p = char ch → (place before).inCall = true → (place before).inSection = true) ∧
    (p = callEnd → (place before).inSection = true → (place before).inCall = true)

theorem healPiece_adds (roundTrip : JsString → Option JsString) (s : State) (p : Piece) :
    ((s.inSection = true → (healPiece roundTrip s p).2 = []) ∧
        (s.inSection = false → ∀ ch, p = char ch → (healPiece roundTrip s p).2 = [ch])) ↔
      (∀ ch, p = char ch → s.inCall = true → s.inSection = true) ∧
        (p = callEnd → s.inSection = true → s.inCall = true) := by
  have hne : TOK_CALL_END ≠ [] := by decide
  cases hsec : s.inSection <;> cases hcall : s.inCall <;> cases hargs : s.inArgs <;>
    cases p <;> simp [healPiece, hsec, hcall, hargs, hne]

/-- **What healing eats.**  It eats the sections and nothing else if, and only if, no character
comes after a section that left a call open, and no call is ended that was not begun. -/
theorem eatsOnlySections_iff (roundTrip : JsString → Option JsString) (chunks : List JsString) :
    EatsOnlySections roundTrip chunks ↔ CallsEnd (pieces chunks.flatten) := by
  have hadds : ∀ before p, _ := fun before => healPiece_adds roundTrip (after roundTrip before)
  have hplace : ∀ before, place before = ⟨(after roundTrip before).inSection,
    (after roundTrip before).inCall⟩ := fun before => (after_place before).symm
  constructor
  · intro h before p rest hsplit
    have hpiece := h.piece before p rest hsplit
    rw [hplace] at hpiece ⊢
    exact (hadds before p).mp hpiece
  · intro h
    refine ⟨flatMap_text_pieces _, (heal_eq chunks).1, fun before p rest hsplit => ?_,
      fun call hcall => ?_⟩
    · have hends := h before p rest hsplit
      rw [hplace] at hends ⊢
      exact (hadds before p).mpr hends
    · rw [(heal_eq chunks).2] at hcall
      exact (after_spans _).1 call hcall

/-- A section ends with a call left open, and the reply after it is gone. -/
theorem reply_after_open_call : ¬ EatsOnlySections some
    [js "<|tool_calls_section_begin|><|tool_call_begin|>x<|tool_calls_section_end|>hello"] := by
  intro h
  have hpiece := h.piece [sectionBegin, callBegin, char 0x78, sectionEnd] (char 0x68)
    ((js "ello").map char) (by decide +kernel)
  cases hpiece.2 rfl 0x68 rfl

end Shown

end ToolCallHealing
end GajaeCode
