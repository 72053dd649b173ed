import GajaeCode.TelegramEmphasis

/-! # The lines of Telegram HTML

The lines of an escaped text are blocks: some stand between the tags of a header or a quote,
and the passes over emphasis go neither across line breaks nor across these tags.  So the
tags of all blocks are nested if and only if every line keeps its pairs.
-/
namespace GajaeCode
open JsString List

namespace TelegramHtml
open Html
variable {f : JsString → JsString} {d : Delimiter CodeUnit} {front : JsString} {u : CodeUnit}

/-- A pass that goes neither across line breaks nor across the tags of lines. -/
structure Linewise (f : JsString → JsString) : Prop where
  nil : f [] = []
  lineBreak : ∀ text rest, f (text ++ LF :: rest) = f text ++ LF :: f rest
  header : ∀ text, f (tag (js "b") text) = tag (js "b") (f text)
  quote : ∀ text, f (tag (js "blockquote") text) = tag (js "blockquote") (f text)

theorem Linewise.comp {g : JsString → JsString} (hf : Linewise f) (hg : Linewise g) :
    Linewise (f ∘ g) where
  nil := by rw [Function.comp_apply, hg.nil, hf.nil]
  lineBreak text rest := by
    rw [Function.comp_apply, hg.lineBreak, hf.lineBreak]
    rfl
  header text := by
    rw [Function.comp_apply, hg.header, hf.header]
    rfl
  quote text := by
    rw [Function.comp_apply, hg.quote, hf.quote]
    rfl

theorem Linewise.unlines (hf : Linewise f) (ls : List JsString) :
    f (unlines ls) = JsString.unlines (ls.map f) := by
  induction ls with
  | nil => exact hf.nil
  | cons l ls ih =>
    cases ls with
    | nil => simp
    | cons l' ls =>
      rw [unlines_cons_cons, hf.lineBreak, ih]
      exact (unlines_cons_cons _ _ _).symm

theorem replacePairs_enclosed {back : JsString} (hfront : d.unit ∉ front) (hback : d.unit ∉ back)
    (name text : JsString) :
    replacePairs d name (front ++ text ++ back) = front ++ replacePairs d name text ++ back := by
  have hplain : ∀ us : JsString,
      (us.map Delimiter.Segment.plain).flatMap (replaceSegment name) = us := by
    intro us
    induction us with
    | nil => rfl
    | cons u us ih => rw [map_cons, flatMap_cons, ih]; rfl
  rw [replacePairs, d.segments_append_plain hback, d.segments_plain_append hfront,
    flatMap_append, flatMap_append, hplain, hplain]
  rfl

theorem replacePairs_tag {outer : JsString} (h : d.unit ∉ js "</" ++ outer ++ js ">")
    (name text : JsString) :
    replacePairs d name (tag outer text) = tag outer (replacePairs d name text) := by
  have hback : d.unit ∉ js "</" ++ outer ++ js ">" := h
  have hfront : d.unit ∉ js "<" ++ outer ++ js ">" := by
    intro hmem
    apply h
    simp only [mem_append] at hmem ⊢
    rcases hmem with (hless | houter) | hgreater
    · rw [show js "</" = js "<" ++ js "/" from rfl]
      exact .inl (.inl (mem_append_left _ hless))
    · exact .inl (.inr houter)
    · exact .inr hgreater
  have henclosed := replacePairs_enclosed hfront hback name text
  simpa only [tag, append_assoc] using henclosed

theorem linewise_replacePairs {unit : CodeUnit} {width : Nat} (h : unit ≠ LF) (hpos : 0 < width)
    (hheader : unit ∉ js "</b>") (hquote : unit ∉ js "</blockquote>") (name : JsString) :
    Linewise (replacePairs (inlineDelimiter unit width h hpos) name) where
  nil := rfl
  lineBreak text rest := by
    rw [replacePairs, (inlineDelimiter unit width h hpos).segments_break (beq_self_eq_true LF),
      flatMap_append]
    rfl
  header text := replacePairs_tag hheader name text
  quote text := replacePairs_tag hquote name text

theorem linewise_emphasize : Linewise emphasize := by
  have hbold : Linewise (replacePairs boldDelimiter (js "b")) :=
    linewise_replacePairs _ _ (by decide) (by decide) _
  have hitalic : Linewise (replacePairs italicDelimiter (js "i")) :=
    linewise_replacePairs _ _ (by decide) (by decide) _
  have hstrike : Linewise (replacePairs strikeDelimiter (js "s")) :=
    linewise_replacePairs _ _ (by decide) (by decide) _
  exact hstrike.comp (hitalic.comp hbold)

/-! ## Lines, headers and quotes -/

/-- What a line or several lines become. -/
inductive Block where
  | line (text : JsString)
  | header (text : JsString)
  | quote (texts : List JsString)

def Block.texts : Block → List JsString
  | line text | header text => [text]
  | quote texts => texts

def Block.html (f : JsString → JsString) : Block → JsString
  | line text => f text
  | header text => tag (js "b") (f text)
  | quote texts => tag (js "blockquote") (unlines (texts.map f))

theorem Linewise.block (hf : Linewise f) (g : JsString → JsString) (block : Block) :
    f (block.html g) = block.html (f ∘ g) := by
  cases block with
  | line text => rfl
  | header text => exact hf.header _
  | quote texts =>
    rw [Block.html, hf.quote, hf.unlines, map_map]
    rfl

theorem escapeHtml_cons (u : CodeUnit) (text : JsString) :
    escapeHtml (u :: text) = (escapeToken u).text ++ escapeHtml text := by
  rw [escapeHtml_eq, escapeHtml_eq, map_cons, render_cons]

theorem escapeToken_text (h : (escapeToken u).text.head? ≠ some AMP) :
    (escapeToken u).text = [u] := by
  unfold escapeToken at h ⊢
  split_ifs at h ⊢
  · exact absurd rfl h
  · exact absurd rfl h
  · exact absurd rfl h
  · rfl

theorem escapeHtml_eq_cons {text rest : JsString} (h : escapeHtml text = u :: rest) (hne : u ≠ AMP)
    : ∃ text', text = u :: text' ∧ rest = escapeHtml text' := by
  cases text with
  | nil => cases h
  | cons v text =>
    rw [escapeHtml_cons] at h
    have htext : (escapeToken v).text = [v] := by
      refine escapeToken_text fun hhead => hne ?_
      have hfirst := congrArg head? h
      rw [head?_append, hhead] at hfirst
      exact (some.inj hfirst).symm
    rw [htext, singleton_append, List.cons.injEq] at h
    exact ⟨text, by rw [h.1], h.2.symm⟩

theorem escapeHtml_dropWhile {P : CodeUnit → Bool} (hP : P AMP = false) (hless : P LESS = false)
    (hgreater : P GREATER = false) (text : JsString) :
    (escapeHtml text).dropWhile P = escapeHtml (text.dropWhile P) := by
  induction text with
  | nil => rfl
  | cons u text ih =>
    rw [escapeHtml_cons]
    by_cases hu : P u = true
    · have htoken : (escapeToken u).text = [u] := by
        unfold escapeToken
        rw [if_neg, if_neg, if_neg]
        · rfl
        all_goals
          rintro rfl
          simp_all
      rw [htoken, singleton_append, dropWhile_cons_of_pos hu, dropWhile_cons_of_pos hu, ih]
    · have hhead : ∃ v rest, (escapeToken u).text = v :: rest ∧ ¬ P v = true := by
        unfold escapeToken
        split_ifs
        · exact ⟨_, _, rfl, by simp [hP]⟩
        · exact ⟨_, _, rfl, by simp [hP]⟩
        · exact ⟨_, _, rfl, by simp [hP]⟩
        · exact ⟨_, _, rfl, hu⟩
      obtain ⟨v, rest, heq, hv⟩ := hhead
      rw [dropWhile_cons_of_neg hu, escapeHtml_cons, heq, cons_append, dropWhile_cons_of_neg hv]

/-- The markers of a text are not touched by a beginning without markers. -/
theorem keepsPairs_append (hbold : (0x2a : CodeUnit) ∉ front) (hstrike : (0x7e : CodeUnit) ∉ front)
    (text : JsString) : keepsPairs (front ++ text) = keepsPairs text := by
  have hunit : ∀ u, u ∉ front → Piece.unit u ∉ front.map Piece.unit := by
    intro u hu hmem
    obtain ⟨v, hv, heq⟩ := mem_map.mp hmem
    exact hu (Piece.unit.inj heq ▸ hv)
  have hplain : ∀ (e : Emphasis) (pieces : List Piece),
      (pieces.map Delimiter.Segment.plain).flatMap (markSegment e) = pieces := by
    intro e pieces
    induction pieces with
    | nil => rfl
    | cons p pieces ih => rw [map_cons, flatMap_cons, ih]; rfl
  have hmarks : marks (front ++ text) = front.map Piece.unit ++ marks text := by
    rw [marks, map_append, markPairs, markPairs,
      boldPieces.segments_plain_append (hunit 0x2a hbold), flatMap_append, hplain,
      italicPieces.segments_plain_append (hunit 0x2a hbold), flatMap_append, hplain]
    rfl
  have hnone : ∀ pieces : List Piece,
      (pieces.map Delimiter.Segment.plain).filterMap Delimiter.Segment.body? = [] := by
    intro pieces
    rw [filterMap_map]
    exact filterMap_eq_nil_iff.mpr fun _ _ => rfl
  rw [keepsPairs, Delimiter.bodies, hmarks,
    strikePieces.segments_plain_append (hunit 0x7e hstrike), filterMap_append, hnone]
  rfl

/-- A body is the end of its line, and no marker is before it. -/
def IsBodyOf (body line : JsString) : Prop :=
  ∃ text, body = escapeHtml text ∧ keepsPairs line = keepsPairs text

theorem quoteBody_escapeHtml {line body : JsString}
    (h : quoteBody (escapeHtml line) = some body) : IsBodyOf body line := by
  obtain ⟨rest, hrest, h⟩ := Option.bind_eq_some_iff.mp h
  have hline : ∃ text, line = GREATER :: text ∧ rest = escapeHtml text := by
    rw [expect] at hrest
    split_ifs at hrest with hbegins
    obtain rfl := some.inj hrest
    cases line with
    | nil => cases hbegins
    | cons u line =>
      rw [escapeHtml_cons] at hbegins ⊢
      by_cases hamp : u = AMP
      · subst hamp
        cases hbegins
      by_cases hless : u = LESS
      · subst hless
        cases hbegins
      by_cases hgreater : u = GREATER
      · subst hgreater
        exact ⟨line, rfl, rfl⟩
      · have htext : (escapeToken u).text = [u] := by
          rw [escapeToken, if_neg hamp, if_neg hless, if_neg hgreater]
          rfl
        rw [htext, singleton_append] at hbegins
        obtain ⟨hhead, -⟩ : 0x26 = u ∧ _ := by simpa [js, isPrefixOf] using hbegins
        exact absurd hhead.symm hamp
  obtain ⟨text, rfl, rfl⟩ := hline
  split_ifs at h with hspace
  · simp only at h
    split_ifs at h
    obtain rfl := some.inj h
    obtain ⟨u, hu, hwhite⟩ : ∃ u, (escapeHtml text).head? = some u ∧ isWhitespace u = true := by
      cases hhead : (escapeHtml text).head? with
      | none => rw [hhead] at hspace; cases hspace
      | some u => rw [hhead] at hspace; exact ⟨u, rfl, hspace⟩
    obtain ⟨rest, hcons⟩ := head?_eq_some_iff.mp hu
    have hne : ∀ v, isWhitespace v = false → u ≠ v := by
      rintro v hv rfl
      rw [hwhite] at hv
      cases hv
    obtain ⟨text', rfl, rfl⟩ := escapeHtml_eq_cons hcons (hne AMP (by decide))
    refine ⟨text', by rw [hcons, tail_cons], ?_⟩
    have hbold : (0x2a : CodeUnit) ∉ [GREATER, u] := by
      simpa [GREATER] using (hne 0x2a (by decide)).symm
    have hstrike : (0x7e : CodeUnit) ∉ [GREATER, u] := by
      simpa [GREATER] using (hne 0x7e (by decide)).symm
    exact keepsPairs_append hbold hstrike text'
  · simp only at h
    split_ifs at h
    obtain rfl := some.inj h
    have hmarkers : (0x2a : CodeUnit) ∉ [GREATER] ∧ (0x7e : CodeUnit) ∉ [GREATER] := by decide
    exact ⟨text, rfl, keepsPairs_append hmarkers.1 hmarkers.2 text⟩

theorem headerBody_escapeHtml {line body : JsString}
    (h : headerBody (escapeHtml line) = some body) : IsBodyOf body line := by
  rw [headerBody] at h
  split_ifs at h
  obtain rfl := some.inj h
  have hhashes : ∀ us : JsString, (escapeHtml us).dropWhile (fun u => decide (u = 0x23)) =
      escapeHtml (us.dropWhile fun u => decide (u = 0x23)) :=
    fun us => escapeHtml_dropWhile (by decide) (by decide) (by decide) us
  have hspaces : ∀ us : JsString, (escapeHtml us).dropWhile isWhitespace =
      escapeHtml (us.dropWhile isWhitespace) :=
    fun us => escapeHtml_dropWhile (by decide) (by decide) (by decide) us
  refine ⟨(line.dropWhile fun u => decide (u = 0x23)).dropWhile isWhitespace,
    by rw [hhashes, hspaces], ?_⟩
  have hsplit : line = (line.takeWhile (fun u => decide (u = 0x23)) ++
      (line.dropWhile fun u => decide (u = 0x23)).takeWhile isWhitespace) ++
        (line.dropWhile fun u => decide (u = 0x23)).dropWhile isWhitespace := by
    rw [append_assoc, takeWhile_append_dropWhile, takeWhile_append_dropWhile]
  have hmarker : ∀ u : CodeUnit, u ≠ 0x23 → isWhitespace u = false →
      u ∉ line.takeWhile (fun u => decide (u = 0x23)) ++
        (line.dropWhile fun u => decide (u = 0x23)).takeWhile isWhitespace := by
    intro u hne hwhite hmem
    rcases mem_append.mp hmem with hhash | hspace
    · exact hne (of_decide_eq_true (mem_takeWhile_imp (p := fun u => decide (u = 0x23)) hhash))
    · rw [mem_takeWhile_imp hspace] at hwhite
      cases hwhite
  calc keepsPairs line = _ := congrArg keepsPairs hsplit
    _ = _ := keepsPairs_append (hmarker 0x2a (by decide) (by decide))
      (hmarker 0x7e (by decide) (by decide)) _

/-- All texts of the blocks keep their pairs. -/
def AllKeep (blocks : List Block) : Prop :=
  ∀ block ∈ blocks, ∀ text ∈ block.texts, keepsPairs text = true

theorem allKeep_append {blocks blocks' : List Block} :
    AllKeep (blocks ++ blocks') ↔ AllKeep blocks ∧ AllKeep blocks' := by
  simp only [AllKeep, mem_append, or_imp, forall_and]

theorem flushQuote_escapeHtml (quoteBuffer : Option (List JsString)) :
    ∃ blocks, flushQuote (quoteBuffer.map (map escapeHtml)) = blocks.map (Block.html escapeHtml) ∧
      (AllKeep blocks ↔ ∀ text ∈ quoteBuffer.getD [], keepsPairs text = true) := by
  cases quoteBuffer with
  | none => exact ⟨[], rfl, by simp [AllKeep]⟩
  | some texts => exact ⟨[.quote texts], rfl, by simp [AllKeep, Block.texts]⟩

/-- The lines of an escaped text are blocks, of whose texts the pairs are those of the lines. -/
theorem blockLines_escapeHtml (quoteBuffer : Option (List JsString)) (ls : List JsString) :
    ∃ blocks, blockLines (quoteBuffer.map (map escapeHtml)) (ls.map escapeHtml) =
        blocks.map (Block.html escapeHtml) ∧
      (AllKeep blocks ↔ (∀ text ∈ quoteBuffer.getD [], keepsPairs text = true) ∧
        ∀ line ∈ ls, keepsPairs line = true) := by
  induction ls generalizing quoteBuffer with
  | nil =>
    obtain ⟨blocks, hblocks, hkeep⟩ := flushQuote_escapeHtml quoteBuffer
    exact ⟨blocks, hblocks, by simp [hkeep]⟩
  | cons line ls ih =>
    rw [map_cons, blockLines]
    cases hquote : quoteBody (escapeHtml line) with
    | some body =>
      obtain ⟨text, rfl, htext⟩ := quoteBody_escapeHtml hquote
      obtain ⟨blocks, hblocks, hkeep⟩ := ih (some (quoteBuffer.getD [] ++ [text]))
      refine ⟨blocks, ?_, ?_⟩
      · rw [← hblocks]
        cases quoteBuffer <;> simp
      · rw [hkeep]
        simp [or_imp, forall_and, htext, and_assoc]
    | none =>
      obtain ⟨front, hfront, hkeepFront⟩ := flushQuote_escapeHtml quoteBuffer
      obtain ⟨blocks, hblocks, hkeep⟩ := ih none
      have hfound : ∀ block : Block, (AllKeep [block] ↔ keepsPairs line = true) →
          (AllKeep (front ++ block :: blocks) ↔ (∀ text ∈ quoteBuffer.getD [],
            keepsPairs text = true) ∧ ∀ l ∈ line :: ls, keepsPairs l = true) := by
        intro block hkeepBlock
        rw [show front ++ block :: blocks = front ++ ([block] ++ blocks) from rfl,
          allKeep_append, allKeep_append, hkeepFront, hkeepBlock, hkeep]
        simp
      cases hheader : headerBody (escapeHtml line) with
      | none =>
        refine ⟨front ++ .line line :: blocks, ?_, hfound _ (by simp [AllKeep, Block.texts])⟩
        rw [map_append, map_cons, ← hfront, ← hblocks]
        rfl
      | some body =>
        obtain ⟨text, rfl, htext⟩ := headerBody_escapeHtml hheader
        have hkept := hfound (.header text) (by simp [AllKeep, Block.texts, htext])
        refine ⟨front ++ .header text :: blocks, ?_, hkept⟩
        rw [map_append, map_cons, ← hfront, ← hblocks]
        rfl

/-- Tokens that are nested, wherever they stand, if and only if `c` holds. -/
def NestedIf (c : Bool) (tokens : List Token) : Prop :=
  ∀ stack rest, nested stack (tokens ++ rest) = (c && nested stack rest)

theorem NestedIf.enclose {c : Bool} {tokens : List Token} (h : NestedIf c tokens) (tag : Tag) :
    NestedIf c (.opening tag :: tokens ++ [.closing tag]) := by
  intro stack rest
  rw [append_assoc, cons_append, nested, h]
  simp [nested]

/-- `join("\n")`. -/
def joinTokens (parts : List (List Token)) : List Token := [Token.unit LF].intercalate parts

theorem joinTokens_cons_cons (part part' : List Token) (parts : List (List Token)) :
    joinTokens (part :: part' :: parts) = part ++ (.unit LF :: joinTokens (part' :: parts)) := by
  simp [joinTokens, intercalate]

theorem joinTokens_singleton (part : List Token) : joinTokens [part] = part := by
  simp [joinTokens, intercalate]

theorem render_joinTokens (parts : List (List Token)) :
    render (joinTokens parts) = unlines (parts.map render) := by
  induction parts with
  | nil => rfl
  | cons part parts ih =>
    cases parts with
    | nil => rw [joinTokens_singleton, map_singleton, unlines_singleton]
    | cons part' parts =>
      rw [joinTokens_cons_cons, render_append, render_cons, ih]
      exact (unlines_cons_cons _ _ _).symm

theorem nested_unit (u : CodeUnit) (stack : List Tag) (rest : List Token) :
    nested stack (.unit u :: rest) = nested stack rest := neutral_unit u stack rest

theorem nestedIf_joinTokens {α : Type} {f : α → List Token} {c : α → Bool} {parts : List α}
    (h : ∀ a ∈ parts, NestedIf (c a) (f a)) :
    NestedIf (parts.all c) (joinTokens (parts.map f)) := by
  induction parts with
  | nil => exact fun _ _ => rfl
  | cons a parts ih =>
    have ha := h a mem_cons_self
    have hparts := ih fun b hb => h b (.tail _ hb)
    rw [all_cons]
    cases parts with
    | nil => simpa [joinTokens_singleton] using ha
    | cons a' parts =>
      intro stack rest
      rw [map_cons, map_cons, joinTokens_cons_cons, append_assoc, ha,
        cons_append, ← map_cons, nested_unit, hparts, Bool.and_assoc]

def textTokens (text : JsString) : List Token := (emphasized text).map Piece.token

def Block.tokens : Block → List Token
  | line text => textTokens text
  | header text => .opening .b :: textTokens text ++ [.closing .b]
  | quote texts =>
    .opening .blockquote :: joinTokens (texts.map textTokens) ++ [.closing .blockquote]

theorem render_enclose (t : Tag) (tokens : List Token) :
    render (.opening t :: tokens ++ [.closing t]) = tag t.name (render tokens) := by
  simp [render_append, tag, Token.text, Token.inner, js, LESS, GREATER]

theorem render_tokens (block : Block) :
    render block.tokens = block.html (emphasize ∘ escapeHtml) := by
  have htext : ∀ text, render (textTokens text) = (emphasize ∘ escapeHtml) text := by
    intro text
    rw [textTokens, Function.comp_apply, emphasize_escapeHtml]
  cases block with
  | line text => rw [Block.tokens, Block.html, htext]
  | header text => rw [Block.tokens, Block.html, render_enclose, htext, Tag.name]
  | quote texts =>
    have htexts : render ∘ textTokens = emphasize ∘ escapeHtml := by
      funext text
      rw [Function.comp_apply, htext]
    rw [Block.tokens, Block.html, render_enclose, render_joinTokens, map_map, htexts, Tag.name]

theorem nestedIf_tokens (block : Block) : NestedIf (block.texts.all keepsPairs) block.tokens := by
  have htext : ∀ text, NestedIf (keepsPairs text) (textTokens text) :=
    fun text => nested_emphasized text
  cases block with
  | line text => simpa [Block.texts, Block.tokens] using htext text
  | header text => simpa [Block.texts, Block.tokens] using (htext text).enclose .b
  | quote texts => exact (nestedIf_joinTokens fun text _ => htext text).enclose .blockquote

end TelegramHtml
end GajaeCode
