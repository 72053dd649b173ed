import GajaeCode.TelegramBlocks

/-! # When the rendered HTML is well formed

Whatever was rendered first (code, tables, links) is well formed by itself and may be
restored anywhere in the text.  With what the lines contribute, the whole is well formed if
and only if every line of the text outside code, tables and links keeps its pairs.
-/
namespace GajaeCode
open JsString List

namespace TelegramHtml
open Html
variable {placeholders : List JsString} {tokens : List Token}
variable (stringWidth : JsString → Nat)
variable {after html front : JsString} {index : Nat} {token : Token} {u : CodeUnit}

/-- HTML that is well formed by itself and wherever it is inserted. -/
def Fragment (html : JsString) : Prop :=
  ∃ tokens, (∀ token ∈ tokens, token.Valid) ∧ Neutral tokens ∧ render tokens = html

theorem Fragment.nil : Fragment [] := ⟨[], nofun, neutral_nil, rfl⟩

theorem Fragment.append {html' : JsString} (h : Fragment html) (h' : Fragment html') :
    Fragment (html ++ html') := by
  obtain ⟨tokens, hvalid, hneutral, rfl⟩ := h
  obtain ⟨tokens', hvalid', hneutral', rfl⟩ := h'
  refine ⟨tokens ++ tokens', fun token hmem => ?_, hneutral.append hneutral',
    render_append tokens tokens'⟩
  exact (mem_append.mp hmem).elim (hvalid token) (hvalid' token)

theorem Fragment.tag (h : Fragment html) (t : Tag) : Fragment (TelegramHtml.tag t.name html) := by
  obtain ⟨tokens, hvalid, hneutral, rfl⟩ := h
  refine ⟨.opening t :: tokens ++ [.closing t], ?_, hneutral.enclose t, render_enclose t tokens⟩
  intro token hmem
  rcases mem_append.mp hmem with hmem | hmem
  · rcases mem_cons.mp hmem with rfl | hmem
    · trivial
    · exact hvalid token hmem
  · obtain rfl := mem_singleton.mp hmem
    trivial

theorem Fragment.escape (text : JsString) : Fragment (escapeHtml text) := by
  refine ⟨text.map escapeToken, ?_, neutral_of_forall ?_, (escapeHtml_eq text).symm⟩
  · intro token hmem
    obtain ⟨u, -, rfl⟩ := mem_map.mp hmem
    exact escapeToken_valid u
  · intro token hmem
    obtain ⟨u, -, rfl⟩ := mem_map.mp hmem
    exact neutral_escapeToken u

theorem Fragment.text {text : JsString} (h : escapeHtml text = text) : Fragment text :=
  h ▸ Fragment.escape text

theorem Fragment.intercalate {separator : JsString} (hseparator : Fragment separator)
    {parts : List JsString} (h : ∀ part ∈ parts, Fragment part) :
    Fragment (separator.intercalate parts) := by
  induction parts with
  | nil => exact .nil
  | cons part parts ih =>
    have hpart := h part mem_cons_self
    have hparts := ih fun part' hmem => h part' (.tail _ hmem)
    cases parts with
    | nil => simpa [intercalate] using hpart
    | cons part' parts =>
      have happend := hpart.append (hseparator.append hparts)
      simpa [intercalate] using happend

/-- The address of a link has no brackets and no quotes. -/
theorem Fragment.link (url label : JsString) :
    Fragment (js "<a href=\"" ++ escapeAttr url ++ js "\">" ++ escapeHtml label ++ js "</a>") := by
  have hunits : ∀ u ∈ escapeAttr url, u ≠ LESS ∧ u ≠ GREATER ∧ u ≠ QUOTE := by
    intro u hu
    obtain ⟨v, hv, hu⟩ := mem_flatMap.mp hu
    split_ifs at hu with hquote
    · have hall : (js "&quot;").all fun w => w ≠ LESS && w ≠ GREATER && w ≠ QUOTE := by decide
      simpa [and_assoc] using all_eq_true.mp hall u hu
    · obtain rfl := mem_singleton.mp hu
      rw [escapeHtml_eq, render, mem_flatMap] at hv
      obtain ⟨token, htoken, hv⟩ := hv
      obtain ⟨w, -, rfl⟩ := mem_map.mp htoken
      have hentities : ∀ e : Entity, ∀ x ∈ (Token.entity e).text, x ≠ LESS ∧ x ≠ GREATER := by
        intro e x hx
        have hall : (Token.entity e).text.all fun x => x ≠ LESS && x ≠ GREATER := by
          cases e <;> rfl
        simpa using all_eq_true.mp hall x hx
      have hbrackets : u ≠ LESS ∧ u ≠ GREATER := by
        unfold escapeToken at hv
        split_ifs at hv with hamp hless hgreater
        · exact hentities _ u hv
        · exact hentities _ u hv
        · exact hentities _ u hv
        · obtain rfl := mem_singleton.mp hv
          exact ⟨hless, hgreater⟩
      exact ⟨hbrackets.1, hbrackets.2, hquote⟩
  obtain ⟨tokens, hvalid, hneutral, hrender⟩ := Fragment.escape label
  refine ⟨.link (escapeAttr url) :: tokens ++ [.closing .a], ?_,
    hneutral.encloseLink (escapeAttr url), ?_⟩
  · intro token hmem
    rcases mem_append.mp hmem with hmem | hmem
    · rcases mem_cons.mp hmem with rfl | hmem
      · exact ⟨fun hu => (hunits _ hu).1 rfl, fun hu => (hunits _ hu).2.1 rfl,
          fun hu => (hunits _ hu).2.2 rfl⟩
      · exact hvalid token hmem
    · obtain rfl := mem_singleton.mp hmem
      trivial
  · rw [← hrender, cons_append, render_cons, render_append]
    simp [Token.text, Token.inner, hrefPrefix, js, LESS, GREATER, QUOTE, Tag.name]

def AllFragments (placeholders : List JsString) : Prop := ∀ html ∈ placeholders, Fragment html

theorem AllFragments.concat (h : AllFragments placeholders) (hhtml : Fragment html) :
    AllFragments (placeholders ++ [html]) := by
  intro html' hmem
  rcases mem_append.mp hmem with hmem | hmem
  · exact h html' hmem
  · exact mem_singleton.mp hmem ▸ hhtml

/-- A match whose HTML is a fragment, whatever the text. -/
def StashesFragments (matchAt : JsString → Option (Replacement × JsString)) : Prop :=
  ∀ text html after, matchAt text = some (.html html, after) → Fragment html

theorem AllFragments.replaceStashing {matchAt : JsString → Option (Replacement × JsString)}
    (hmatch : StashesFragments matchAt) (fuel : Nat) (h : AllFragments placeholders)
    (text : JsString) : AllFragments (replaceStashing matchAt fuel placeholders text).2 := by
  induction fuel generalizing placeholders text with
  | zero => exact h
  | succ fuel ih =>
    cases text with
    | nil => exact h
    | cons u text =>
      rw [TelegramHtml.replaceStashing]
      cases hfound : matchAt (u :: text) with
      | none => exact ih h text
      | some found =>
        obtain ⟨replacement, after⟩ := found
        cases replacement with
        | html html => exact ih (h.concat (hmatch _ _ _ hfound)) after
        | literal whole => exact ih h after

theorem Fragment.pre (raw : JsString) : Fragment (TelegramHtml.pre raw) := (escape raw).tag .pre

theorem stashesFragments_fenceAt : StashesFragments fenceAt := by
  intro text html after h
  obtain ⟨opened, -, h⟩ := Option.bind_eq_some_iff.mp h
  dsimp only at h
  split at h
  · cases h
    exact .pre _
  · obtain ⟨rest, -, heq⟩ := Option.map_eq_some_iff.mp h
    cases heq
    exact .pre _

theorem stashesFragments_inlineCodeAt : StashesFragments inlineCodeAt := by
  intro text html after h
  obtain ⟨found, -, heq⟩ := Option.map_eq_some_iff.mp h
  cases heq
  exact (Fragment.escape found.1).tag .code

theorem stashesFragments_linkAt : StashesFragments linkAt := by
  intro text html after h
  obtain ⟨opened, -, h⟩ := Option.bind_eq_some_iff.mp h
  obtain ⟨target, -, h⟩ := Option.bind_eq_some_iff.mp h
  obtain ⟨after', -, h⟩ := Option.bind_eq_some_iff.mp h
  split_ifs at h
  · cases h
    exact .link _ _
  · cases h

theorem Fragment.table (header : List JsString) (aligns : List ColumnAlign)
    (body : List (List JsString)) :
    Fragment (renderTelegramTable stringWidth header aligns body) := by
  rw [renderTelegramTable]
  split_ifs
  · exact .pre _
  · refine Fragment.intercalate (.text (by decide)) fun record hrecord => ?_
    obtain ⟨row, -, rfl⟩ := mem_map.mp hrecord
    refine Fragment.intercalate (.text (by decide)) fun field hfield => ?_
    obtain ⟨cell, -, rfl⟩ := mem_map.mp hfield
    exact (((Fragment.escape _).tag .b).append (.text (by decide))).append (.escape _)

theorem AllFragments.convertLines (fuel : Nat) (h : AllFragments placeholders) (ls : List JsString)
    : AllFragments (convertLines stringWidth fuel placeholders ls).2 := by
  induction fuel generalizing placeholders ls with
  | zero => exact h
  | succ fuel ih =>
    cases ls with
    | nil => exact h
    | cons line ls =>
      rw [TelegramHtml.convertLines]
      dsimp only
      split_ifs
      · exact ih (h.concat (.table _ _ _ _)) _
      · exact ih h ls

theorem allFragments_protect (markdown : JsString) :
    AllFragments (protect stringWidth markdown).2 := by
  have hfenced : AllFragments (replaceStashing fenceAt markdown.length [] markdown).2 :=
    AllFragments.replaceStashing stashesFragments_fenceAt _
      (fun _ hmem => absurd hmem not_mem_nil) _
  have htables := hfenced.convertLines stringWidth
    (lines (replaceStashing fenceAt markdown.length [] markdown).1).length
    (lines (replaceStashing fenceAt markdown.length [] markdown).1)
  exact AllFragments.replaceStashing stashesFragments_linkAt _
    (AllFragments.replaceStashing stashesFragments_inlineCodeAt _ htables _) _

/-! ## Restoring -/

theorem expect_eq_some {literal text : JsString} (h : expect literal text = some after) :
    text = literal ++ after := by
  rw [expect] at h
  split_ifs at h with hbegins
  obtain rfl := some.inj h
  obtain ⟨rest, rfl⟩ := List.isPrefixOf_iff_prefix.mp hbegins
  rw [drop_left]

section
variable {text : JsString} (h : placeholderAt text = some (index, after))
include h

theorem placeholderAt_eq_some : ∃ digits : JsString, (∀ u ∈ digits, isDigit u = true) ∧
      text = PLACEHOLDER_PREFIX ++ digits ++ PLACEHOLDER_SUFFIX ++ after := by
  obtain ⟨rest, hrest, h⟩ := Option.bind_eq_some_iff.mp h
  simp only at h
  split_ifs at h
  obtain ⟨after', hafter, heq⟩ := Option.map_eq_some_iff.mp h
  cases heq
  refine ⟨rest.takeWhile isDigit, fun u hu => mem_takeWhile_imp hu, ?_⟩
  rw [expect_eq_some hrest, append_assoc _ PLACEHOLDER_SUFFIX, ← expect_eq_some hafter,
    append_assoc, takeWhile_append_dropWhile]

theorem placeholderAt_length : after.length < text.length := by
  obtain ⟨digits, -, rfl⟩ := placeholderAt_eq_some h
  simp only [length_append, PLACEHOLDER_PREFIX, length_cons]
  omega

end

theorem placeholderAt_of_ne (h : u ≠ 0) (text : JsString) : placeholderAt (u :: text) = none := by
  have hexpect : expect PLACEHOLDER_PREFIX (u :: text) = none := by
    rw [expect, if_neg]
    intro hbegins
    obtain ⟨rest, heq⟩ := List.isPrefixOf_iff_prefix.mp hbegins
    exact h (List.cons.inj heq).1.symm
  rw [placeholderAt, hexpect]
  rfl

theorem restoreFrom_eq (placeholders : List JsString) {fuel fuel' : Nat} {text : JsString}
    (h : text.length ≤ fuel) (h' : text.length ≤ fuel') :
    restoreFrom placeholders fuel text = restoreFrom placeholders fuel' text := by
  induction fuel generalizing fuel' text with
  | zero =>
    obtain rfl := length_eq_zero_iff.mp (Nat.le_zero.mp h)
    cases fuel' <;> rfl
  | succ fuel ih =>
    cases text with
    | nil => cases fuel' <;> rfl
    | cons u text =>
      rw [length_cons] at h h'
      obtain ⟨fuel', rfl⟩ : ∃ k, fuel' = k + 1 := ⟨fuel' - 1, by omega⟩
      rw [restoreFrom, restoreFrom]
      cases hfound : placeholderAt (u :: text) with
      | none => exact congrArg _ (ih (by omega) (by omega))
      | some found =>
        have hlt := placeholderAt_length hfound
        rw [length_cons] at hlt
        exact congrArg _ (ih (by omega) (by omega))

theorem restore_none {text : JsString} (h : placeholderAt (u :: text) = none) :
    restore placeholders (u :: text) = u :: restore placeholders text := by
  rw [restore, length_cons, restoreFrom, h]
  rfl

theorem restore_some {text : JsString} (h : placeholderAt text = some (index, after)) :
    restore placeholders text = placeholders.getD index [] ++ restore placeholders after := by
  cases text with
  | nil =>
    have := placeholderAt_length h
    simp at this
  | cons u text =>
    have hlt := placeholderAt_length h
    rw [length_cons] at hlt
    rw [restore, length_cons, restoreFrom, h]
    exact congrArg _ (restoreFrom_eq _ (by omega) le_rfl)

theorem restore_append (h : 0 ∉ front) (text : JsString) :
    restore placeholders (front ++ text) = front ++ restore placeholders text := by
  induction front with
  | nil => rfl
  | cons u front ih =>
    have hu : u ≠ 0 := fun heq => h (heq ▸ mem_cons_self)
    rw [cons_append, restore_none (placeholderAt_of_ne hu _),
      ih fun hmem => h (.tail u hmem), cons_append]

/-- Tokens of the text: no links, and brackets and ampersands only in tags and entities. -/
def Bare (token : Token) : Prop := token.Valid ∧ ∀ href, token ≠ .link href

/-- Units other than brackets and ampersands are tokens by themselves. -/
theorem units_of_render (h : ∀ token ∈ tokens, Bare token) {rest : JsString}
    (hfront : ∀ u ∈ front, u ≠ LESS ∧ u ≠ AMP) (hrender : render tokens = front ++ rest) :
    ∃ tokens', tokens = front.map .unit ++ tokens' ∧ render tokens' = rest := by
  induction front generalizing tokens with
  | nil => exact ⟨tokens, rfl, hrender⟩
  | cons u front ih =>
    obtain ⟨hless, hamp⟩ := hfront u mem_cons_self
    cases tokens with
    | nil => cases hrender
    | cons token tokens =>
      rw [render_cons, cons_append] at hrender
      have htoken : token = .unit u ∧ render tokens = front ++ rest := by
        cases token with
        | unit v =>
          rw [Token.text, singleton_append, List.cons.injEq] at hrender
          exact ⟨congrArg _ hrender.1, hrender.2⟩
        | entity e => exact absurd (List.cons.inj hrender).1.symm hamp
        | opening t | closing t => exact absurd (List.cons.inj hrender).1.symm hless
        | link href => exact absurd rfl ((h _ mem_cons_self).2 href)
      obtain ⟨rfl, hrest⟩ := htoken
      obtain ⟨tokens', rfl, hrender'⟩ := ih (fun t ht => h t (.tail _ ht))
        (fun v hv => hfront v (.tail u hv)) hrest
      exact ⟨tokens', rfl, hrender'⟩

theorem zero_not_mem_text (h : Bare token) (hne : token ≠ .unit 0) : 0 ∉ token.text := by
  cases token with
  | unit u =>
    intro hmem
    exact hne (congrArg _ (mem_singleton.mp hmem).symm)
  | entity e => cases e <;> decide
  | opening t | closing t => cases t <;> decide
  | link href => exact absurd rfl (h.2 href)

/-- **Restoring fragments changes nothing about the tags that are open.** -/
theorem restore_render (hfragments : AllFragments placeholders) (h : ∀ token ∈ tokens, Bare token) :
    ∃ tokens', (∀ token ∈ tokens', token.Valid) ∧
      restore placeholders (render tokens) = render tokens' ∧
      ∀ stack, nested stack tokens' = nested stack tokens := by
  induction hn : tokens.length using Nat.strongRecOn generalizing tokens with
  | ind n ih =>
    subst hn
    cases tokens with
    | nil => exact ⟨[], nofun, rfl, fun _ => rfl⟩
    | cons token tokens =>
      have htoken := h token mem_cons_self
      have htokens : ∀ t ∈ tokens, Bare t := fun t ht => h t (.tail _ ht)
      -- a token that stays, before a text of which the rest is restored
      have hstays : restore placeholders (token.text ++ render tokens) =
          token.text ++ restore placeholders (render tokens) →
          ∃ tokens', (∀ t ∈ tokens', t.Valid) ∧
            restore placeholders (render (token :: tokens)) = render tokens' ∧
            ∀ stack, nested stack tokens' = nested stack (token :: tokens) := by
        intro hrestore
        obtain ⟨tokens', hvalid, hrender, hnested⟩ :=
          ih tokens.length (Nat.lt_succ_self _) htokens rfl
        refine ⟨token :: tokens', ?_, ?_, fun stack => ?_⟩
        · rintro t (_ | ⟨_, ht⟩)
          · exact htoken.1
          · exact hvalid t ht
        · rw [render_cons, render_cons, hrestore, hrender]
        · cases token with
          | closing t => cases stack <;> simp [nested, hnested]
          | _ => cases stack <;> exact hnested _
      by_cases hne : token = .unit 0
      · subst hne
        cases hfound : placeholderAt (0 :: render tokens) with
        | none => exact hstays (restore_none hfound)
        | some found =>
          obtain ⟨index, after⟩ := found
          obtain ⟨digits, hdigits, heq⟩ := placeholderAt_eq_some hfound
          have hunits : ∀ u ∈ PLACEHOLDER_PREFIX ++ digits ++ PLACEHOLDER_SUFFIX,
              u ≠ LESS ∧ u ≠ AMP := by
            intro u hu
            have hall : (PLACEHOLDER_PREFIX ++ PLACEHOLDER_SUFFIX).all
                fun v => v ≠ LESS && v ≠ AMP := by decide
            have hfixed : ∀ v, v ∈ PLACEHOLDER_PREFIX ∨ v ∈ PLACEHOLDER_SUFFIX →
                v ≠ LESS ∧ v ≠ AMP := by
              intro v hv
              simpa using all_eq_true.mp hall v (mem_append.mpr hv)
            simp only [mem_append] at hu
            rcases hu with (hu | hu) | hu
            · exact hfixed u (.inl hu)
            · have hdigit := hdigits u hu
              constructor
              all_goals
                rintro rfl
                cases hdigit
            · exact hfixed u (.inr hu)
          obtain ⟨rest, hrest, hafter⟩ := units_of_render h hunits heq
          have hshorter : rest.length < (Token.unit 0 :: tokens).length := by
            rw [hrest]
            simp only [length_append, length_map, PLACEHOLDER_PREFIX, length_cons]
            omega
          obtain ⟨tokens', hvalid, hrender, hnested⟩ := ih rest.length hshorter
            (fun t ht => h t (hrest ▸ mem_append_right _ ht)) rfl
          have hfragment : Fragment (placeholders.getD index []) := by
            rw [getD_eq_getElem?_getD]
            cases hget : placeholders[index]? with
            | none => exact .nil
            | some html => exact hfragments html (mem_of_getElem? hget)
          obtain ⟨inserted, hinserted, hneutral, hhtml⟩ := hfragment
          refine ⟨inserted ++ tokens', ?_, ?_, fun stack => ?_⟩
          · intro t ht
            exact (mem_append.mp ht).elim (hinserted t) (hvalid t)
          · rw [render_append, hhtml, ← hrender, hafter]
            exact restore_some hfound
          · have hplain : Neutral ((PLACEHOLDER_PREFIX ++ digits ++ PLACEHOLDER_SUFFIX).map
                Token.unit) := by
              refine neutral_of_forall fun t ht => ?_
              obtain ⟨u, -, rfl⟩ := mem_map.mp ht
              exact neutral_unit u
            rw [hneutral, hnested, hrest, hplain]
      · exact hstays (restore_append (zero_not_mem_text htoken hne) _)

/-! ## The whole text -/

theorem bare_of_mem_textTokens {text : JsString} (h : token ∈ textTokens text) : Bare token := by
  obtain ⟨piece, -, rfl⟩ := mem_map.mp h
  cases piece with
  | unit u =>
    refine ⟨escapeToken_valid u, fun href => ?_⟩
    rw [Piece.token, escapeToken]
    split_ifs <;> simp
  | opening e | closing e => exact ⟨trivial, by simp [Piece.token]⟩

theorem bare_enclose {t : Tag} (h : ∀ token ∈ tokens, Bare token) :
    ∀ token ∈ Token.opening t :: tokens ++ [.closing t], Bare token := by
  intro token hmem
  rcases mem_append.mp hmem with hmem | hmem
  · rcases mem_cons.mp hmem with rfl | hmem
    · exact ⟨trivial, nofun⟩
    · exact h token hmem
  · obtain rfl := mem_singleton.mp hmem
    exact ⟨trivial, nofun⟩

theorem bare_joinTokens {parts : List (List Token)}
    (h : ∀ part ∈ parts, ∀ token ∈ part, Bare token) : ∀ token ∈ joinTokens parts, Bare token := by
  induction parts with
  | nil => exact nofun
  | cons part parts ih =>
    have hpart := h part mem_cons_self
    have hparts := ih fun part' hmem => h part' (.tail _ hmem)
    cases parts with
    | nil => rwa [joinTokens_singleton]
    | cons part' parts =>
      intro token hmem
      rw [joinTokens_cons_cons, mem_append, mem_cons] at hmem
      rcases hmem with hmem | rfl | hmem
      · exact hpart token hmem
      · exact ⟨⟨by decide, by decide, by decide⟩, nofun⟩
      · exact hparts token hmem

theorem bare_tokens (block : Block) : ∀ token ∈ block.tokens, Bare token := by
  cases block with
  | line text => exact fun token => bare_of_mem_textTokens
  | header text => exact bare_enclose fun token => bare_of_mem_textTokens
  | quote texts =>
    refine bare_enclose (bare_joinTokens fun part hpart token => ?_)
    obtain ⟨text, -, rfl⟩ := mem_map.mp hpart
    exact bare_of_mem_textTokens

theorem lines_escapeHtml (text : JsString) :
    lines (escapeHtml text) = (lines text).map escapeHtml := by
  have hjoin : ∀ ls : List JsString, escapeHtml (unlines ls) = unlines (ls.map escapeHtml) := by
    intro ls
    induction ls with
    | nil => rfl
    | cons l ls ih =>
      cases ls with
      | nil => simp
      | cons l' ls =>
        have happend : ∀ us vs : JsString,
            escapeHtml (us ++ vs) = escapeHtml us ++ escapeHtml vs := by
          intro us vs
          simp only [escapeHtml_eq, map_append, render_append]
        rw [unlines_cons_cons, happend, escapeHtml_cons, ih]
        exact (unlines_cons_cons _ _ _).symm
  have hfree : ∀ l ∈ (lines text).map escapeHtml, LF ∉ l := by
    intro l hl hmem
    obtain ⟨line, hline, rfl⟩ := mem_map.mp hl
    have hnot := LF_not_mem_of_mem_lines hline
    rw [escapeHtml_eq, render, mem_flatMap] at hmem
    obtain ⟨token, htoken, hmem⟩ := hmem
    obtain ⟨u, hu, rfl⟩ := mem_map.mp htoken
    have hne : Piece.unit u ≠ .unit LF := fun heq => hnot (Piece.unit.inj heq ▸ hu)
    exact absurd (isMarkup_of_mem_html hmem hne) (by decide)
  calc lines (escapeHtml text) = lines (escapeHtml (unlines (lines text))) := by
        rw [unlines_lines]
    _ = (lines text).map escapeHtml := by
        rw [hjoin, lines_unlines (by simpa using lines_ne_nil text) hfree]

/-- **The HTML is well formed if and only if, in every line of the text outside code, tables
and links, no pair of tildes encloses one marker of a bold or italic pair without the other.** -/
theorem wellFormed_iff_keepsPairs (stringWidth : JsString → Nat) (markdown : JsString) :
    Html.WellFormed (markdownToTelegramHtml stringWidth markdown) ↔
      ∀ line ∈ lines (protect stringWidth markdown).1, keepsPairs line = true := by
  obtain ⟨blocks, hblocks, hkeep⟩ :=
    blockLines_escapeHtml none (lines (protect stringWidth markdown).1)
  have hemphasized : emphasize (unlines (blockLines none
      (lines (escapeHtml (protect stringWidth markdown).1)))) =
        render (joinTokens (blocks.map Block.tokens)) := by
    rw [lines_escapeHtml]
    refine (congrArg (fun ls => emphasize (unlines ls)) hblocks).trans ?_
    rw [linewise_emphasize.unlines, render_joinTokens, map_map, map_map]
    refine congrArg (fun f => unlines (map f blocks)) (funext fun block => ?_)
    rw [Function.comp_apply, Function.comp_apply, render_tokens, linewise_emphasize.block]
  have hbare : ∀ token ∈ joinTokens (blocks.map Block.tokens), Bare token := by
    refine bare_joinTokens fun part hpart => ?_
    obtain ⟨block, -, rfl⟩ := mem_map.mp hpart
    exact bare_tokens block
  obtain ⟨tokens, hvalid, hrender, hnested⟩ :=
    restore_render (allFragments_protect stringWidth markdown) hbare
  have hhtml : markdownToTelegramHtml stringWidth markdown = render tokens := by
    rw [← hrender, ← hemphasized]
    rfl
  have hwhole : NestedIf (blocks.all fun block => block.texts.all keepsPairs)
      (joinTokens (blocks.map Block.tokens)) :=
    nestedIf_joinTokens fun block _ => nestedIf_tokens block
  have hend := hwhole [] []
  rw [append_nil, nested, isEmpty_nil, Bool.and_true] at hend
  rw [hhtml, wellFormed_render hvalid, hnested, hend]
  simpa [AllKeep, all_eq_true] using hkeep

/-- `*a ~~b* c~~` becomes `<i>a <s>b</i> c</s>`. -/
theorem not_wellFormed_crossing :
    markdownToTelegramHtml length (js "*a ~~b* c~~") = js "<i>a <s>b</i> c</s>" ∧
      ¬ Html.WellFormed (markdownToTelegramHtml length (js "*a ~~b* c~~")) := by
  have hhtml : markdownToTelegramHtml length (js "*a ~~b* c~~") = js "<i>a <s>b</i> c</s>" := by
    decide
  refine ⟨hhtml, ?_⟩
  rw [hhtml]
  decide

end TelegramHtml
end GajaeCode
