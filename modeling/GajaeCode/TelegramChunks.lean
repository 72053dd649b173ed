import GajaeCode.TelegramSplit

/-! # When Telegram chunks are messages

`splitTelegramHtml` cuts a well-formed message into chunks that are within the limit and well
formed just when every unit and every entity fits between the kept tags around it, and every
closing tag that finds a kept tag of its name finds it last (`Fits`).  The limit that the code
keeps for an opening tag leaves room for one unit, and an entity has more.
-/
namespace GajaeCode
open JsString List

namespace TelegramMessage
open Html (LESS GREATER AMP SEMICOLON)

namespace Splitting
variable {token : Token}

/-- A unit or an entity fits between the kept tags; a closing tag finds the kept tag of its name
last, or none. -/
def Placeable (max : Nat) (stack : List OpenTag) (token : Token) : Prop :=
  match token.opens, token.closes with
  | some _, _ => True
  | none, some name => stack.all (·.name ≠ name) ∨ stack.head?.map OpenTag.name = some name
  | none, none => (openersFor stack).length + token.value.length + (closersFor stack).length ≤ max

/-- Every token is placeable under the tags that are kept before it. -/
def Fits (max : Nat) : List OpenTag → List Token → Prop
  | _, [] => True
  | stack, token :: rest =>
    Placeable max stack token ∧ Fits max ((keep max stack token).getD stack) rest

/-- A chunk as the limit and Telegram have it. -/
def Proper (max : Nat) (chunk : JsString) : Prop := chunk.length ≤ max ∧ WellFormed chunk

/-- What holds of the state as long as every token is placeable. -/
structure Good (max : Nat) (s : Splitting) : Prop where
  proper : ∀ chunk ∈ s.chunks, Proper max chunk
  nested : unwind [] (tokenize s.out) = some (names s.stack)
  room : s.chunkHasBody = true → s.out.length + (closersFor s.stack).length ≤ max

/-- What no token mends. -/
def Spoilt (max : Nat) (s : Splitting) : Prop :=
  (∃ chunk ∈ s.chunks, ¬ Proper max chunk) ∨
    s.chunkHasBody = true ∧
      (max < s.out.length + (closersFor s.stack).length ∨ unwind [] (tokenize s.out) = none)

/-! ## One token -/

theorem nest_closing {stack : List OpenTag} {name : JsString} (hopens : token.opens = none)
    (hcloses : token.closes = some name) (hfound : stack.all (·.name ≠ name) = false) :
    (stack.head?.map OpenTag.name = some name ∧
      nest (names stack) token = some (names (stack.eraseP (·.name = name)))) ∨
    (stack.head?.map OpenTag.name ≠ some name ∧ nest (names stack) token = none) := by
  cases stack with
  | nil => cases hfound
  | cons tag stack =>
    simp only [head?_cons, Option.map_some, Option.some.injEq, names, map_cons, nest,
      hopens, hcloses]
    by_cases htag : tag.name = name
    · exact .inl ⟨htag, by simp [htag]⟩
    · exact .inr ⟨fun heq => htag (some.inj heq), if_neg htag⟩

/-- A token that is kept is placeable if it fits and its tag is closed in order. -/
theorem Keeps.placeable_iff {max : Nat} {stack next : List OpenTag} (h : Keeps max stack token next)
    (hstack : Roomy max stack) : (Placeable max stack token ∧
      (openersFor stack).length + token.value.length + (closersFor next).length ≤ max ∧
      nest (names stack) token = some (names next)) ∨ (¬ Placeable max stack token ∧
      (max < (openersFor stack).length + token.value.length + (closersFor next).length ∨
      nest (names stack) token = none)) := by
  have hfits := h.tag_fits hstack
  cases h with
  | text hopens hcloses =>
    have hnest : nest (names stack) token = some (names stack) := by
      simp only [nest, hopens, hcloses]
    simp only [Placeable, hopens, hcloses, hnest]
    exact (Nat.lt_or_ge max _).elim (fun h => .inr ⟨not_le.mpr h, .inl h⟩) fun h =>
      .inl ⟨h, h, trivial⟩
  | opening _ hopens =>
    have hplace : Placeable max stack token := by simp only [Placeable, hopens]
    refine .inl ⟨hplace, hfits (by simp [hopens]), ?_⟩
    simp only [nest, hopens, names, map_cons]
  | closing hopens hcloses _ hfound =>
    simp only [Placeable, hopens, hcloses, hfound, Bool.false_eq_true, false_or]
    rcases nest_closing hopens hcloses hfound with ⟨hhead, hnest⟩ | ⟨hhead, hnest⟩
    · exact .inl ⟨hhead, hfits (by simp [hcloses]), hnest⟩
    · exact .inr ⟨hhead, .inr hnest⟩

theorem placeable_of_keep_eq_none {max : Nat} {stack : List OpenTag}
    (h : keep max stack token = none) : Placeable max stack token := by
  match token with
  | ⟨_, some _, _, _⟩ => trivial
  | ⟨_, none, _, some name⟩ =>
    by_cases hfound : stack.all (·.name ≠ name) = true
    · exact .inl hfound
    · cases (if_neg hfound).symm.trans h
  | ⟨_, none, _, none⟩ => cases h

section
variable {max : Nat} {s : Splitting} (h : Sound max s)
variable {token : Token}
include h

theorem unwind_ended : unwind [] (tokenize (s.out ++ closersFor s.stack)) =
    (unwind [] (tokenize s.out)).bind fun stack => unwind stack (closing (names s.stack)) := by
  rw [tokenize_append h.out (made_closersFor h.tags), tokenize_closersFor h.tags, unwind_append]

theorem Good.ended (hgood : Good max s) (hbody : s.chunkHasBody = true) :
    Proper max (s.out ++ closersFor s.stack) := by
  refine ⟨by rw [length_append]; exact hgood.room hbody, wellFormed_iff.mpr
    ⟨h.out.append (made_closersFor h.tags), ?_⟩⟩
  rw [unwind_ended h, hgood.nested, Option.bind_some, unwind_closing]

theorem Good.flushed (hgood : Good max s) (hbody : s.chunkHasBody = true) : Good max s.flushed where
  proper := forall_mem_append.mpr ⟨hgood.proper, forall_mem_singleton.mpr (hgood.ended h hbody)⟩
  nested := by
    rw [Splitting.flushed, tokenize_openersFor h.tags]
    exact unwind_opening h.tags
  room := nofun

theorem not_proper_ended (hspoilt : max < s.out.length + (closersFor s.stack).length ∨
      unwind [] (tokenize s.out) = none) : ¬ Proper max (s.out ++ closersFor s.stack) := by
  rintro ⟨hlength, hwell⟩
  rcases hspoilt with hlong | hnone
  · rw [length_append] at hlength
    omega
  · have hnested := (wellFormed_iff.mp hwell).2
    rw [unwind_ended h, hnone] at hnested
    cases hnested

theorem unwind_add (htoken : token.Valid) (next : List OpenTag) :
    unwind [] (tokenize (s.add token next).out) =
      (unwind [] (tokenize s.out)).bind fun stack => nest stack token := by
  rw [Splitting.add, tokenize_append h.out htoken.made, htoken.tokenize, unwind_append]
  refine congrArg _ (funext fun stack => ?_)
  rw [unwind_cons]
  cases nest stack token <;> rfl

theorem Good.makeRoom (hgood : Good max s) (token : Token) (next : List OpenTag) :
    Good max (s.makeRoom max token next) := by
  rcases makeRoom_cases max token next s with ⟨heq, -⟩ | ⟨heq, hbody, -⟩ <;> rw [heq]
  · exact hgood
  · exact hgood.flushed h hbody

theorem Good.taken (hgood : Good max s) (htoken : token.Valid)
    (hplace : Placeable max s.stack token) : Good max (s.take max token) ∧
      (s.take max token).stack = (keep max s.stack token).getD s.stack := by
  rw [take_eq h htoken]
  cases hkeep : keep max s.stack token with
  | none => exact ⟨hgood, rfl⟩
  | some next =>
    rcases (keeps_of_keep htoken hkeep).placeable_iff h.roomy with ⟨-, hroom, hnest⟩ | ⟨hno, -⟩
    · have hmade := hgood.makeRoom h token next
      refine ⟨⟨hmade.proper, ?_, fun _ => ?_⟩, rfl⟩
      · rw [unwind_add (h.makeRoom token next) htoken, hmade.nested, makeRoom_stack]
        exact hnest
      · have hfits := exceeds_eq_false.mp (not_exceeds_makeRoom h hroom)
        simpa only [Splitting.add, length_append] using hfits
    · exact absurd hplace hno

/-- The first token that is not placeable spoils the chunk that it is written to. -/
theorem Good.spoils (hgood : Good max s) (htoken : token.Valid)
    (hplace : ¬ Placeable max s.stack token) : Spoilt max (s.take max token) := by
  rw [take_eq h htoken]
  cases hkeep : keep max s.stack token with
  | none => exact absurd (placeable_of_keep_eq_none hkeep) hplace
  | some next =>
    rcases (keeps_of_keep htoken hkeep).placeable_iff h.roomy with ⟨hyes, -⟩ | ⟨-, hspoils⟩
    · exact absurd hyes hplace
    · refine .inr ⟨rfl, hspoils.imp (fun hlong => ?_) fun hnone => ?_⟩
      · have hopened := (h.makeRoom token next).opened
        rw [makeRoom_stack] at hopened
        simp only [Splitting.add, length_append]
        omega
      · rw [unwind_add (h.makeRoom token next) htoken, (hgood.makeRoom h token next).nested,
          makeRoom_stack]
        exact hnone

theorem Spoilt.taken (hspoilt : Spoilt max s) (htoken : token.Valid) :
    Spoilt max (s.take max token) := by
  rw [take_eq h htoken]
  cases hkeep : keep max s.stack token with
  | none => exact hspoilt
  | some next =>
    rcases makeRoom_cases max token next s with ⟨heq, hfits⟩ | ⟨heq, -⟩ <;> simp only [heq]
    · refine hspoilt.imp id fun ⟨hbody, hbad⟩ => ⟨rfl, hbad.imp (fun hlong => ?_) fun hnone => ?_⟩
      · have hroom := exceeds_eq_false.mp (hfits hbody)
        have hclosers := (keeps_of_keep htoken hkeep).length_closersFor
        omega
      · rw [unwind_add h htoken, hnone]
        rfl
    · rcases hspoilt with ⟨chunk, hchunk, hbad⟩ | ⟨-, hbad⟩
      · exact .inl ⟨chunk, mem_append_left _ hchunk, hbad⟩
      · exact .inl ⟨_, mem_append_right _ (mem_singleton_self _), not_proper_ended h hbad⟩

theorem Good.finish (hgood : Good max s) : ∀ chunk ∈ s.finish, Proper max chunk := by
  unfold Splitting.finish
  split
  · rename_i hbody
    exact (hgood.flushed h hbody).proper
  · exact hgood.proper

theorem Spoilt.finish (hspoilt : Spoilt max s) : ∃ chunk ∈ s.finish, ¬ Proper max chunk := by
  unfold Splitting.finish
  rcases hspoilt with ⟨chunk, hchunk, hbad⟩ | ⟨hbody, hbad⟩
  · refine ⟨chunk, ?_, hbad⟩
    split
    · exact mem_append_left _ hchunk
    · exact hchunk
  · rw [if_pos hbody]
    exact ⟨_, mem_append_right _ (mem_singleton_self _), not_proper_ended h hbad⟩

end

theorem good_start (max : Nat) : Good max start :=
  ⟨forall_mem_nil _, rfl, nofun⟩

theorem Spoilt.run {max : Nat} {s : Splitting} (h : Sound max s) (hspoilt : Spoilt max s)
    {tokens : List Token} (htokens : ∀ token ∈ tokens, token.Valid) :
    Spoilt max (tokens.foldl (Splitting.take max) s) := by
  induction tokens generalizing s with
  | nil => exact hspoilt
  | cons token tokens ih =>
    obtain ⟨htoken, htokens⟩ := forall_mem_cons.mp htokens
    exact ih (h.taken htoken).1 (hspoilt.taken h htoken) htokens

theorem Good.run {max : Nat} {s : Splitting} (h : Sound max s) (hgood : Good max s)
    {tokens : List Token} (htokens : ∀ token ∈ tokens, token.Valid) :
    (Fits max s.stack tokens ∧ Good max (tokens.foldl (Splitting.take max) s)) ∨
    (¬ Fits max s.stack tokens ∧ Spoilt max (tokens.foldl (Splitting.take max) s)) := by
  induction tokens generalizing s with
  | nil => exact .inl ⟨trivial, hgood⟩
  | cons token tokens ih =>
    obtain ⟨htoken, htokens⟩ := forall_mem_cons.mp htokens
    have hsound := (h.taken htoken).1
    by_cases hplace : Placeable max s.stack token
    · obtain ⟨hnext, hstack⟩ := hgood.taken h htoken hplace
      have hrun := ih hsound hnext htokens
      rw [hstack] at hrun
      exact hrun.imp (And.imp_left fun hfits => ⟨hplace, hfits⟩)
        (And.imp_left fun hnot hfits => hnot hfits.2)
    · exact .inr ⟨fun hfits => hplace hfits.1, (hgood.spoils h htoken hplace).run hsound htokens⟩

end Splitting
open Splitting

/-- The chunks of a well-formed message are within the limit and well formed just when the
message is within the limit or all its tokens are placeable; its text is never lost. -/
theorem split_iff_fits {message : JsString} (h : WellFormed message) (max : Nat) :
    ((∀ chunk ∈ splitTelegramHtml message max, chunk.length ≤ max ∧ WellFormed chunk) ∧
      (splitTelegramHtml message max).flatMap stripTags = stripTags message) ↔
    message.length ≤ max ∨ Fits max [] (tokenize message) := by
  refine (and_iff_left (split_keeps_text h max)).trans ?_
  unfold splitTelegramHtml
  by_cases hshort : message.length ≤ max
  · rw [if_pos hshort]
    exact iff_of_true (forall_mem_singleton.mpr ⟨hshort, h⟩) (.inl hshort)
  · obtain ⟨tokens, hreads⟩ := h
    rw [if_neg hshort, hreads.tokenize_eq]
    obtain ⟨hsound, -⟩ := (sound_start max).run hreads.valid
    rcases (good_start max).run (sound_start max) hreads.valid with ⟨hfits, hgood⟩ | ⟨hnot, hspoilt⟩
    · exact iff_of_true (hgood.finish hsound) (.inr hfits)
    · obtain ⟨chunk, hchunk, hbad⟩ := hspoilt.finish hsound
      exact iff_of_false (fun hall => hbad (hall chunk hchunk)) (not_or.mpr ⟨hshort, hnot⟩)

theorem wellFormed_link {attributes text : JsString}
    (hspace : attributes.head?.any isWhitespace = true) (hinside : GREATER ∉ attributes)
    (htext : Made text) (hnested : unwind []
      (tokenize (js "<a" ++ attributes ++ js ">" ++ text ++ js "</a>")) = some []) :
    WellFormed (js "<a" ++ attributes ++ js ">" ++ text ++ js "</a>") := by
  have hallowed : toLowerCase (js "a") ∈ ALLOWED_TAGS := by decide
  have hopening := (Token.Valid.opening hallowed (.inr hspace) hinside).made
  have hclosing := (Token.Valid.closing hallowed).made
  exact wellFormed_iff.mpr ⟨(hopening.append htext).append hclosing, hnested⟩

theorem made_entity {name : JsString} (hne : name ≠ []) (hshort : name.length ≤ 9)
    (hunits : name.all isEntityUnit = true) : Made (AMP :: name ++ [SEMICOLON]) :=
  (Token.Valid.entity hne hshort (all_eq_true.mp hunits)).made

/-- Two entities that do not both fit between the tags of a link of 55 units. -/
theorem split_entities_in_link :
    let message := js "<a href=\"https://example.com/a/path/of/the/link/file\">&amp;&lt;</a>"
    ((∀ chunk ∈ splitTelegramHtml message 64, chunk.length ≤ 64 ∧ WellFormed chunk) ∧
      (splitTelegramHtml message 64).flatMap stripTags = stripTags message) ∧
    64 < message.length := by
  have hentities := (@made_entity (js "amp") (by decide) (by decide) (by decide)).append
    (@made_entity (js "lt") (by decide) (by decide) (by decide))
  have hwell := @wellFormed_link (js " href=\"https://example.com/a/path/of/the/link/file\"") _
    (by decide) (by decide) hentities (by decide)
  exact ⟨(split_iff_fits hwell 64).mpr (.inr ⟨trivial, Nat.le_of_ble_eq_true rfl,
    Nat.le_of_ble_eq_true rfl, .inr rfl, trivial⟩), by decide⟩

/-- The tag of a link of 59 units leaves room for one unit, and the entity has five. -/
theorem entity_in_link_too_long :
    let message := js "<a href=\"https://example.com/a/path/of/the/link/with/file\">&amp;</a>"
    WellFormed message ∧ ¬ ∀ chunk ∈ splitTelegramHtml message 64, chunk.length ≤ 64 := by
  have hentity := @made_entity (js "amp") (by decide) (by decide) (by decide)
  have hwell := @wellFormed_link (js " href=\"https://example.com/a/path/of/the/link/with/file\"")
    _ (by decide) (by decide) hentity (by decide)
  exact ⟨hwell, by decide⟩

end TelegramMessage
end GajaeCode
