import GajaeCode.HtmlTokens
import GajaeCode.TelegramHtml

/-! # Emphasis in Telegram HTML

The passes over bold, italic and struck text, on a text whose units are escaped.  Bold
bodies have no asterisks, so a pair of single asterisks has all or nothing of a bold one.
Nothing of the kind holds for tildes: the tags are nested if and only if no pair of tildes
separates the two markers of another pair (`nested_emphasized`).
-/
namespace GajaeCode
open JsString List Bool

namespace TelegramHtml
open Html
variable {inBold inItalic : Bool} {u : CodeUnit}

inductive Emphasis where
  | bold | italic | strike
  deriving DecidableEq

/-- A unit of the text, or a marker of a pair in the place of its asterisks or tildes. -/
inductive Piece where
  | unit (u : CodeUnit)
  | opening (e : Emphasis)
  | closing (e : Emphasis)
  deriving DecidableEq

def pieceDelimiter (unit : CodeUnit) (width : Nat) (h : unit ≠ LF) (hpos : 0 < width) :
    Delimiter Piece :=
  ⟨.unit unit, width, (· == .unit LF), hpos, beq_eq_false_iff_ne.mpr fun heq =>
    h (Piece.unit.inj heq)⟩

def boldPieces : Delimiter Piece := pieceDelimiter 0x2a 2 star_ne_LF Nat.two_pos

def italicPieces : Delimiter Piece := pieceDelimiter 0x2a 1 star_ne_LF Nat.one_pos

def strikePieces : Delimiter Piece := pieceDelimiter 0x7e 2 tilde_ne_LF Nat.two_pos

def markSegment (e : Emphasis) : Delimiter.Segment Piece → List Piece
  | .plain p => [p]
  | .pair body => .opening e :: body ++ [.closing e]

def markPairs (d : Delimiter Piece) (e : Emphasis) (pieces : List Piece) : List Piece :=
  (d.segments pieces).flatMap (markSegment e)

variable (text : JsString)

/-- A text with its bold and then its italic pairs marked. -/
def marks : List Piece :=
  markPairs italicPieces .italic (markPairs boldPieces .bold (text.map .unit))

/-- The markers of one kind in a piece of text are pairs, one after the other; `inside` tells
whether one is open. -/
def paired (e : Emphasis) : Bool → List Piece → Bool
  | inside, [] => !inside
  | inside, .unit _ :: rest => paired e inside rest
  | inside, .opening e' :: rest =>
    if e' = e then !inside && paired e true rest else paired e inside rest
  | inside, .closing e' :: rest =>
    if e' = e then inside && paired e false rest else paired e inside rest

/-- Of every bold and of every italic pair the piece has both markers or none. -/
def keepsPairsIn (body : List Piece) : Bool := paired .bold false body && paired .italic false body

/-- What stands between a pair of tildes has both or none of the markers of every bold and of
every italic pair. -/
def keepsPairs : Bool := (strikePieces.bodies (marks text)).all keepsPairsIn

def Emphasis.tag : Emphasis → Tag
  | bold => .b
  | italic => .i
  | strike => .s

def escapeToken (u : CodeUnit) : Token :=
  if u = AMP then .entity .amp
  else if u = LESS then .entity .lt
  else if u = GREATER then .entity .gt
  else .unit u

def Piece.token : Piece → Token
  | unit u => escapeToken u
  | opening e => .opening e.tag
  | closing e => .closing e.tag

def Piece.html (p : Piece) : JsString := p.token.text

theorem escapeToken_valid (u : CodeUnit) : (escapeToken u).Valid := by
  unfold escapeToken
  split_ifs with hamp hlt hgt
  · trivial
  · trivial
  · trivial
  · exact ⟨hlt, hgt, hamp⟩

theorem neutral_escapeToken (u : CodeUnit) : Neutral [escapeToken u] := by
  unfold escapeToken
  split_ifs
  · exact neutral_entity _
  · exact neutral_entity _
  · exact neutral_entity _
  · exact neutral_unit u

theorem escapeHtml_eq (value : JsString) : escapeHtml value = render (value.map escapeToken) := by
  induction value with
  | nil => rfl
  | cons u value ih =>
    have hcons : escapeHtml (u :: value) = escapeHtml [u] ++ escapeHtml value := by
      simp only [escapeHtml, replaceUnit, flatMap_cons, flatMap_append, flatMap_nil, append_nil]
    rw [hcons, ih, map_cons, render_cons]
    refine congrArg (· ++ _) ?_
    unfold escapeToken
    by_cases hamp : u = AMP
    · subst hamp
      rfl
    by_cases hlt : u = LESS
    · subst hlt
      rfl
    by_cases hgt : u = GREATER
    · subst hgt
      rfl
    have hamp' : ¬ u = 0x26 := hamp
    have hlt' : ¬ u = 0x3c := hlt
    have hgt' : ¬ u = 0x3e := hgt
    simp [escapeHtml, replaceUnit, hamp, hlt, hgt, hamp', hlt', hgt', Token.text]

/-- The units of the texts that entities and tags of emphasis have. -/
def isMarkup (u : CodeUnit) : Bool := u ∈ js "&<>/;ampltgbis"

theorem isMarkup_entity {e : Entity} (h : e ≠ .quot) :
    (Token.entity e).text.all isMarkup = true := by
  cases e with
  | quot => exact absurd rfl h
  | _ => rfl

theorem isMarkup_of_mem_html {p : Piece} (h : u ∈ p.html) (hne : p ≠ .unit u) :
    isMarkup u = true := by
  have hall : ∀ v ∈ p.html, p = .unit v ∨ isMarkup v = true := by
    cases p with
    | opening e | closing e =>
      refine fun v hv => .inr (all_eq_true.mp ?_ v hv)
      cases e <;> rfl
    | unit v =>
      change ∀ w ∈ (escapeToken v).text, _
      unfold escapeToken
      split_ifs
      · exact fun w hw => .inr (all_eq_true.mp (isMarkup_entity (e := .amp) nofun) w hw)
      · exact fun w hw => .inr (all_eq_true.mp (isMarkup_entity (e := .lt) nofun) w hw)
      · exact fun w hw => .inr (all_eq_true.mp (isMarkup_entity (e := .gt) nofun) w hw)
      · intro w hw
        exact .inl (congrArg _ (mem_singleton.mp hw).symm)
  exact (hall u h).resolve_left hne

theorem html_unit (h : isMarkup u = false) : (Piece.unit u).html = [u] := by
  have hne : ∀ v, isMarkup v = true → u ≠ v := by
    rintro v hv rfl
    rw [h] at hv
    cases hv
  change (escapeToken u).text = [u]
  unfold escapeToken
  rw [if_neg (hne AMP (by decide)), if_neg (hne LESS (by decide)), if_neg (hne GREATER (by decide))]
  rfl

theorem html_ne_nil (p : Piece) : p.html ≠ [] := by
  unfold Piece.html
  cases p.token <;> exact cons_ne_nil _ _

/-- Markers that are no markup are the same in pieces and in their text. -/
theorem substitution_html {unit : CodeUnit} {width : Nat} (h : unit ≠ LF) (hpos : 0 < width)
    (hmarkup : isMarkup unit = false) : Delimiter.Substitution (pieceDelimiter unit width h hpos)
      (inlineDelimiter unit width h hpos) Piece.html where
  width := rfl
  unit := html_unit hmarkup
  body p hp := by
    simp only [Delimiter.inBody, pieceDelimiter, and_eq_true, not_eq_true',
      beq_eq_false_iff_ne] at hp
    have hne : p ≠ .unit unit := of_decide_eq_true hp.1
    refine ⟨html_ne_nil p, fun u hu => ?_⟩
    have hunit : u ≠ unit := by
      rintro rfl
      rw [isMarkup_of_mem_html hu hne] at hmarkup
      cases hmarkup
    have hbreak : u ≠ LF := by
      rintro rfl
      exact absurd (isMarkup_of_mem_html hu hp.2) (by decide)
    simp [Delimiter.inBody, inlineDelimiter, hunit, hbreak]
  breaks p hp := by
    obtain rfl : p = .unit LF := beq_iff_eq.mp hp
    exact ⟨LF, html_unit (by decide), beq_self_eq_true LF⟩

theorem tag_eq (e : Emphasis) (text : JsString) :
    tag e.tag.name text = (Piece.opening e).html ++ text ++ (Piece.closing e).html := by
  cases e <;> simp [tag, Piece.html, Piece.token, Token.text, Token.inner, Emphasis.tag,
    Tag.name, js, LESS, GREATER]

theorem replacePairs_html (unit : CodeUnit) (width : Nat) (h : unit ≠ LF) (hpos : 0 < width)
    (hmarkup : isMarkup unit = false) (e : Emphasis) (pieces : List Piece) :
    replacePairs (inlineDelimiter unit width h hpos) e.tag.name (pieces.flatMap Piece.html) =
      (markPairs (pieceDelimiter unit width h hpos) e pieces).flatMap Piece.html := by
  rw [replacePairs, (substitution_html h hpos hmarkup).segments, markPairs, flatMap_assoc,
    flatMap_assoc]
  refine congrArg (fun f => flatMap f _) (funext fun segment => ?_)
  cases segment with
  | plain p => simp [Delimiter.substitute, flatMap_map, replaceSegment, markSegment]
  | pair body => simp [Delimiter.substitute, tag_eq, replaceSegment, markSegment]

/-- The pieces of a text after all passes. -/
def emphasized : List Piece :=
  markPairs strikePieces .strike (marks text)

theorem flatMap_html (pieces : List Piece) :
    pieces.flatMap Piece.html = render (pieces.map Piece.token) := by
  rw [render, flatMap_map]
  rfl

theorem emphasize_escapeHtml :
    emphasize (escapeHtml text) = render ((emphasized text).map Piece.token) := by
  have hpieces : escapeHtml text = (text.map Piece.unit).flatMap Piece.html := by
    rw [escapeHtml_eq, flatMap_html, map_map]
    rfl
  have hbold := replacePairs_html 0x2a 2 (by decide) (by decide) (by decide) .bold (text.map .unit)
  have hitalic := replacePairs_html 0x2a 1 (by decide) (by decide)
    (by decide) .italic (markPairs boldPieces .bold (text.map .unit))
  have hstrike := replacePairs_html 0x7e 2 (by decide) (by decide) (by decide) .strike (marks text)
  rw [hpieces, ← flatMap_html]
  refine Eq.trans ?_ hstrike
  unfold emphasize
  exact congrArg (replacePairs strikeDelimiter _)
    ((congrArg (replacePairs italicDelimiter _) hbold).trans hitalic)

/-! ## Bold and italic pairs are nested -/

/-- Bold pairs are closed, and asterisks are outside of them. -/
def boldShaped : Bool → List Piece → Bool
  | inBold, [] => !inBold
  | inBold, .unit u :: rest => (u ≠ 0x2a || !inBold) && boldShaped inBold rest
  | inBold, .opening .bold :: rest => !inBold && boldShaped true rest
  | inBold, .closing .bold :: rest => inBold && boldShaped false rest
  | _, _ => false

/-- Bold and italic pairs are closed, and no italic marker is in a bold pair. -/
def shaped : Bool → Bool → List Piece → Bool
  | inItalic, inBold, [] => !inItalic && !inBold
  | inItalic, inBold, .unit _ :: rest => shaped inItalic inBold rest
  | inItalic, inBold, .opening .bold :: rest => !inBold && shaped inItalic true rest
  | inItalic, inBold, .closing .bold :: rest => inBold && shaped inItalic false rest
  | inItalic, inBold, .opening .italic :: rest => !inItalic && !inBold && shaped true inBold rest
  | inItalic, inBold, .closing .italic :: rest => inItalic && !inBold && shaped false inBold rest
  | _, _, _ => false

theorem boldShaped_body {body rest : List Piece}
    (h : ∀ p ∈ body, ∃ u, p = .unit u ∧ u ≠ 0x2a) (inBold : Bool) :
    boldShaped inBold (body ++ rest) = boldShaped inBold rest := by
  induction body with
  | nil => rfl
  | cons p body ih =>
    obtain ⟨u, rfl, hu⟩ := h p mem_cons_self
    simp [boldShaped, hu, ih fun q hq => h q (.tail _ hq)]

theorem boldShaped_markPairs :
    boldShaped false (markPairs boldPieces .bold (text.map .unit)) = true := by
  have hunits : ∀ segment ∈ boldPieces.segments (text.map .unit),
      ∀ p ∈ boldPieces.source segment, ∃ u, p = Piece.unit u := by
    intro segment hsegment p hp
    obtain ⟨u, -, hu⟩ := mem_map.mp (boldPieces.mem_of_mem_segments hsegment p hp)
    exact ⟨u, hu.symm⟩
  have hbody : ∀ body, .pair body ∈ boldPieces.segments (text.map .unit) →
      ∀ p ∈ body, ∃ u, p = Piece.unit u ∧ u ≠ 0x2a := by
    intro body hmem p hp
    have hin := boldPieces.inBody_of_mem hmem p hp
    obtain ⟨u, rfl⟩ := hunits _ hmem p (mem_append_left _ (mem_append_right _ hp))
    refine ⟨u, rfl, ?_⟩
    rintro rfl
    simp [Delimiter.inBody, boldPieces, pieceDelimiter] at hin
  rw [markPairs]
  generalize boldPieces.segments (text.map .unit) = segments at hunits hbody
  induction segments with
  | nil => rfl
  | cons segment segments ih =>
    have hrest := ih (fun s hs => hunits s (.tail _ hs)) (fun b hb => hbody b (.tail _ hb))
    rw [flatMap_cons]
    cases segment with
    | plain p =>
      obtain ⟨u, rfl⟩ := hunits _ mem_cons_self p (mem_singleton_self p)
      simpa [markSegment, boldShaped] using hrest
    | pair body =>
      have hplain := hbody body mem_cons_self
      simpa [markSegment, boldShaped, boldShaped_body hplain] using hrest

theorem shaped_italicBody {body rest marked : List Piece} (hbody : ∀ p ∈ body, p ≠ .unit 0x2a)
    (h : boldShaped inBold (body ++ .unit 0x2a :: rest) = true)
    (hrest : boldShaped false rest = true → shaped false false marked = true) :
    shaped true inBold (body ++ .closing .italic :: marked) = true := by
  induction body generalizing inBold with
  | nil =>
    cases inBold
    · exact hrest h
    · cases h
  | cons p body ih =>
    have hne := hbody p mem_cons_self
    replace ih : ∀ inBold, boldShaped inBold (body ++ .unit 0x2a :: rest) = true →
        shaped true inBold (body ++ .closing .italic :: marked) = true :=
      fun inBold h => ih (fun q hq => hbody q (.tail _ hq)) h
    cases p with
    | unit u =>
      have hu : u ≠ 0x2a := fun heq => hne (heq ▸ rfl)
      rw [cons_append, boldShaped, and_eq_true] at h
      exact ih inBold h.2
    | opening e | closing e =>
      cases e with
      | bold =>
        rw [cons_append, boldShaped, and_eq_true] at h
        rw [cons_append, shaped, h.1, ih _ h.2]
        rfl
      | italic | strike => cases h

theorem shaped_markPairs {pieces : List Piece} (h : boldShaped false pieces = true) :
    shaped false false (markPairs italicPieces .italic pieces) = true := by
  have hbody : ∀ body, .pair body ∈ italicPieces.segments pieces →
      ∀ p ∈ body, p ≠ Piece.unit 0x2a := by
    rintro body hmem p hp rfl
    have hin := italicPieces.inBody_of_mem hmem _ hp
    simp [Delimiter.inBody, italicPieces, pieceDelimiter] at hin
  rw [← italicPieces.flatMap_source pieces] at h
  rw [markPairs]
  generalize italicPieces.segments pieces = segments at h hbody
  suffices key : ∀ inBold, boldShaped inBold (segments.flatMap italicPieces.source) = true →
      shaped false inBold (segments.flatMap (markSegment .italic)) = true from key false h
  clear h
  induction segments with
  | nil => exact fun inBold h => h
  | cons segment segments ih =>
    intro inBold h
    replace ih := ih fun b hb => hbody b (.tail _ hb)
    rw [flatMap_cons] at h ⊢
    cases segment with
    | plain p =>
      rw [Delimiter.source, singleton_append] at h
      rw [markSegment, singleton_append]
      cases p with
      | unit u =>
        rw [boldShaped, and_eq_true] at h
        exact ih inBold h.2
      | opening e | closing e =>
        cases e with
        | bold =>
          rw [boldShaped, and_eq_true] at h
          rw [shaped, h.1, ih _ h.2]
          rfl
        | italic | strike => cases h
    | pair body =>
      cases inBold with
      | true => cases h
      | false =>
        have hsource : boldShaped false
            (body ++ .unit 0x2a :: segments.flatMap italicPieces.source) = true := by
          simpa [Delimiter.source, italicPieces, pieceDelimiter, boldShaped] using h
        have hshaped := shaped_italicBody (hbody body mem_cons_self) hsource (ih false)
        simpa [markSegment, shaped] using hshaped

theorem shaped_marks : shaped false false (marks text) = true :=
  shaped_markPairs (boldShaped_markPairs text)

/-! ## What tildes may enclose -/

def openTags (inItalic inBold : Bool) : List Tag :=
  (if inBold then [.b] else []) ++ (if inItalic then [.i] else [])

theorem nested_escapeToken (u : CodeUnit) (stack : List Tag) (tokens : List Token) :
    nested stack (escapeToken u :: tokens) = nested stack tokens :=
  neutral_escapeToken u stack tokens

/-- Between the tags of a pair of tildes the pairs must be whole.  `inItalic` and `inBold` tell
what is open in the text, `i` and `b` what of it was opened between the tildes. -/
theorem nested_strikeBody {body rest : List Piece} {i b : Bool}
    (h : shaped inItalic inBold (body ++ rest) = true) (hi : i = true → inItalic = true)
    (hb : b = true → inBold = true) (stack : List Tag) (tokens : List Token) :
    nested (openTags i b ++ .s :: stack) (body.map Piece.token ++ .closing .s :: tokens) =
      (paired .bold b body && paired .italic i body && nested stack tokens) := by
  induction body generalizing inItalic inBold i b with
  | nil => cases i <;> cases b <;> simp [openTags, nested, paired]
  | cons p body ih =>
    rw [map_cons, cons_append]
    cases p with
    | unit u =>
      rw [Piece.token, nested_escapeToken]
      exact ih h hi hb
    | opening e =>
      cases e with
      | bold =>
        rw [cons_append, shaped, and_eq_true, not_eq_true'] at h
        obtain ⟨rfl, h⟩ := h
        obtain rfl : b = false := eq_false_iff.mpr fun hb' => false_ne_true (hb hb')
        have hnext := ih h hi (fun _ => rfl) (b := true)
        simpa [nested, paired, openTags, Piece.token, Emphasis.tag] using hnext
      | italic =>
        rw [cons_append, shaped, and_eq_true, and_eq_true, not_eq_true',
          not_eq_true'] at h
        obtain ⟨⟨rfl, rfl⟩, h⟩ := h
        obtain rfl : b = false := eq_false_iff.mpr fun hb' => false_ne_true (hb hb')
        obtain rfl : i = false := eq_false_iff.mpr fun hi' => false_ne_true (hi hi')
        have hnext := ih h (fun _ => rfl) hb (i := true)
        simpa [nested, paired, openTags, Piece.token, Emphasis.tag] using hnext
      | strike => cases h
    | closing e =>
      cases e with
      | bold =>
        rw [cons_append, shaped, and_eq_true] at h
        obtain ⟨rfl, h⟩ := h
        have hnext := ih h hi false_ne_true.elim (b := false)
        cases b with
        | true => simpa [nested, paired, openTags, Piece.token, Emphasis.tag] using hnext
        | false => cases i <;> simp [nested, paired, openTags, Piece.token, Emphasis.tag]
      | italic =>
        rw [cons_append, shaped, and_eq_true, and_eq_true, not_eq_true'] at h
        obtain ⟨⟨rfl, rfl⟩, h⟩ := h
        obtain rfl : b = false := eq_false_iff.mpr fun hb' => false_ne_true (hb hb')
        have hnext := ih h false_ne_true.elim hb (i := false)
        cases i with
        | true => simpa [nested, paired, openTags, Piece.token, Emphasis.tag] using hnext
        | false => simp [nested, paired, openTags, Piece.token, Emphasis.tag]
      | strike => cases h

theorem shaped_of_paired {body rest : List Piece} {i b : Bool}
    (h : shaped (inItalic || i) (inBold || b) (body ++ rest) = true)
    (hi : i = true → inItalic = false) (hb : b = true → inBold = false)
    (hbold : paired .bold b body = true) (hitalic : paired .italic i body = true) :
    shaped inItalic inBold rest = true := by
  induction body generalizing i b with
  | nil =>
    obtain rfl : b = false := by simpa [paired] using hbold
    obtain rfl : i = false := by simpa [paired] using hitalic
    simpa using h
  | cons p body ih =>
    cases p with
    | unit u => exact ih h hi hb hbold hitalic
    | opening e =>
      cases e with
      | bold =>
        rw [cons_append, shaped, and_eq_true, not_eq_true', or_eq_false_iff] at h
        obtain ⟨⟨rfl, rfl⟩, h⟩ := h
        exact ih (b := true) h hi (fun _ => rfl) (by simpa [paired] using hbold)
          (by simpa [paired] using hitalic)
      | italic =>
        rw [cons_append, shaped, and_eq_true, and_eq_true, not_eq_true',
          not_eq_true', or_eq_false_iff, or_eq_false_iff] at h
        obtain ⟨⟨⟨rfl, rfl⟩, rfl, rfl⟩, h⟩ := h
        exact ih (i := true) h (fun _ => rfl) hb (by simpa [paired] using hbold)
          (by simpa [paired] using hitalic)
      | strike => cases h
    | closing e =>
      cases e with
      | bold =>
        rw [cons_append, shaped, and_eq_true] at h
        obtain ⟨rfl, hbold⟩ : b = true ∧ paired .bold false body = true := by
          simpa [paired] using hbold
        obtain rfl := hb rfl
        exact ih (b := false) h.2 hi nofun hbold (by simpa [paired] using hitalic)
      | italic =>
        rw [cons_append, shaped, and_eq_true, and_eq_true, not_eq_true',
          or_eq_false_iff] at h
        obtain ⟨⟨-, rfl, rfl⟩, h⟩ := h
        obtain ⟨rfl, hitalic⟩ : i = true ∧ paired .italic false body = true := by
          simpa [paired] using hitalic
        obtain rfl := hi rfl
        exact ih (i := false) h nofun hb (by simpa [paired] using hbold) hitalic
      | strike => cases h

/-- **The tags of a text are nested if and only if its pairs of tildes enclose whole pairs.** -/
theorem nested_strike {segments : List (Delimiter.Segment Piece)}
    (h : shaped inItalic inBold (segments.flatMap strikePieces.source) = true) (stack : List Tag)
    (tokens : List Token) : nested (openTags inItalic inBold ++ stack)
        ((segments.flatMap (markSegment .strike)).map Piece.token ++ tokens) =
      ((segments.filterMap Delimiter.Segment.body?).all keepsPairsIn && nested stack tokens) := by
  induction segments generalizing inItalic inBold with
  | nil =>
    obtain ⟨rfl, rfl⟩ : inItalic = false ∧ inBold = false := by simpa [shaped] using h
    rfl
  | cons segment segments ih =>
    rw [flatMap_cons, map_append, append_assoc]
    rw [flatMap_cons] at h
    cases segment with
    | plain p =>
      rw [Delimiter.source, singleton_append] at h
      simp only [markSegment, map_cons, map_nil, singleton_append,
        filterMap_cons, Delimiter.Segment.body?]
      cases p with
      | unit u =>
        rw [Piece.token, nested_escapeToken]
        exact ih h
      | opening e =>
        cases e with
        | bold =>
          rw [shaped, and_eq_true, not_eq_true'] at h
          obtain ⟨rfl, h⟩ := h
          exact ih h
        | italic =>
          rw [shaped, and_eq_true, and_eq_true, not_eq_true', not_eq_true'] at h
          obtain ⟨⟨rfl, rfl⟩, h⟩ := h
          exact ih h
        | strike => cases h
      | closing e =>
        cases e with
        | bold =>
          rw [shaped, and_eq_true] at h
          obtain ⟨rfl, h⟩ := h
          exact ih h
        | italic =>
          rw [shaped, and_eq_true, and_eq_true, not_eq_true'] at h
          obtain ⟨⟨rfl, rfl⟩, h⟩ := h
          exact ih h
        | strike => cases h
    | pair body =>
      have hbody : shaped inItalic inBold
          (body ++ (.unit 0x7e :: .unit 0x7e :: segments.flatMap strikePieces.source)) = true := by
        simpa [Delimiter.source, strikePieces, pieceDelimiter, shaped] using h
      have hnested := nested_strikeBody hbody false_ne_true.elim false_ne_true.elim
        (i := false) (b := false) (openTags inItalic inBold ++ stack)
        ((segments.flatMap (markSegment .strike)).map Piece.token ++ tokens)
      have hmarked : nested (openTags inItalic inBold ++ stack)
          ((markSegment .strike (.pair body)).map Piece.token ++
            ((segments.flatMap (markSegment .strike)).map Piece.token ++ tokens)) =
          nested (openTags false false ++ .s :: (openTags inItalic inBold ++ stack))
            (body.map Piece.token ++ .closing .s ::
              ((segments.flatMap (markSegment .strike)).map Piece.token ++ tokens)) := by
        simp [markSegment, nested, Piece.token, Emphasis.tag, openTags]
      rw [hmarked, hnested]
      simp only [filterMap_cons, Delimiter.Segment.body?, all_cons, keepsPairsIn]
      cases hkeeps : paired .bold false body && paired .italic false body with
      | false => rfl
      | true =>
        obtain ⟨hbold, hitalic⟩ := and_eq_true_iff.mp hkeeps
        have hafter := shaped_of_paired (i := false) (b := false) (by simpa using hbody)
          false_ne_true.elim false_ne_true.elim hbold hitalic
        rw [Bool.true_and, Bool.true_and]
        exact ih hafter

theorem nested_emphasized (stack : List Tag) (tokens : List Token) :
    nested stack ((emphasized text).map Piece.token ++ tokens) =
      (keepsPairs text && nested stack tokens) := by
  have hshaped := shaped_marks text
  rw [← strikePieces.flatMap_source (marks text)] at hshaped
  exact nested_strike hshaped stack tokens

end TelegramHtml
end GajaeCode
