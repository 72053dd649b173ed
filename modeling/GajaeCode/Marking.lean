import Mathlib.Data.List.Infix

/-! # Words replaced by marks

A text in which words are replaced by marks, as a list of pieces: units that stand for
themselves, and words with the mark that is shown in their place.  `replace` finds words from
left to right; `hide` does the same on pieces and leaves alone what has been replaced before.

A mark is a tag between two fences.  What is shown can be read back (`replace` with
`MarkStyle.find`) if no unit of a tag and no fence stands where it completes a mark that was
not written (`Detached`).
-/
namespace GajaeCode
open List Option

/-- A unit of a text, or a word of it with the mark shown in its place. -/
inductive Piece (α : Type)
  | unit (u : α)
  | marked (word mark : List α)
  deriving DecidableEq

namespace Marking
variable {α : Type}
variable {words : List (List α × List α)} {ps : List (Piece α)} {text : List α}

/-- The pieces of a text where at each place the word found there is marked; the first `skip`
units belong to a word that was found before them. -/
def piecesFrom (find : List α → Option (List α)) (mark : List α → List α) :
    (skip : Nat) → List α → List (Piece α)
  | 0, [] => (find []).toList.map fun word => .marked word (mark word)
  | _ + 1, [] => []
  | skip + 1, _ :: text => piecesFrom find mark skip text
  | 0, u :: text =>
    match find (u :: text) with
    | none => .unit u :: piecesFrom find mark 0 text
    | some [] => .marked [] (mark []) :: .unit u :: piecesFrom find mark 0 text
    | some (w :: word) =>
      .marked (w :: word) (mark (w :: word)) :: piecesFrom find mark word.length text

def pieces (find : List α → Option (List α)) (mark : List α → List α) (text : List α) :
    List (Piece α) := piecesFrom find mark 0 text

/-- The text of a piece, and what is shown of it. -/
def plainOf : Piece α → List α
  | .unit u => [u]
  | .marked word _ => word

def shownOf : Piece α → List α
  | .unit u => [u]
  | .marked _ mark => mark

def plain (ps : List (Piece α)) : List α := ps.flatMap plainOf

def shown (ps : List (Piece α)) : List α := ps.flatMap shownOf

/-- The text with the words found in it replaced by their marks. -/
def replace (find : List α → Option (List α)) (mark : List α → List α) (text : List α) :
    List α := shown (pieces find mark text)

@[simp] theorem plain_nil : plain ([] : List (Piece α)) = [] := rfl

@[simp] theorem shown_nil : shown ([] : List (Piece α)) = [] := rfl

@[simp] theorem plain_cons (p : Piece α) (ps : List (Piece α)) :
    plain (p :: ps) = plainOf p ++ plain ps := flatMap_cons

@[simp] theorem shown_cons (p : Piece α) (ps : List (Piece α)) :
    shown (p :: ps) = shownOf p ++ shown ps := flatMap_cons

@[simp] theorem plain_append (ps qs : List (Piece α)) : plain (ps ++ qs) = plain ps ++ plain qs :=
  flatMap_append

@[simp] theorem shown_append (ps qs : List (Piece α)) : shown (ps ++ qs) = shown ps ++ shown qs :=
  flatMap_append

@[simp] theorem plain_units (text : List α) : plain (text.map .unit) = text := by
  induction text with
  | nil => rfl
  | cons u text ih => rw [map_cons, plain_cons, ih]; rfl

@[simp] theorem shown_units (text : List α) : shown (text.map .unit) = text := by
  induction text with
  | nil => rfl
  | cons u text ih => rw [map_cons, shown_cons, ih]; rfl

/-- What is found at a place is a word that stands there. -/
def Finds (find : List α → Option (List α)) : Prop :=
  ∀ text word, find text = some word → word ≠ [] ∧ word <+: text

section Find
variable {find : List α → Option (List α)} {mark : List α → List α} (hfind : Finds find)
include hfind

theorem Finds.nil : find [] = none := by
  cases hword : find [] with
  | none => rfl
  | some word =>
    obtain ⟨hne, hpre⟩ := hfind [] word hword
    exact absurd (prefix_nil.mp hpre) hne

theorem piecesFrom_skip (skip : Nat) (text : List α) :
    piecesFrom find mark skip text = pieces find mark (text.drop skip) := by
  induction skip generalizing text with
  | zero => rfl
  | succ skip ih =>
    cases text with
    | nil => rw [drop_nil, pieces, piecesFrom, piecesFrom, hfind.nil]; rfl
    | cons u text => exact ih text

theorem pieces_nil : pieces find mark [] = [] := by
  rw [pieces, piecesFrom, hfind.nil]
  rfl

theorem pieces_word {text word : List α} (h : find text = some word) : pieces find mark text =
      .marked word (mark word) :: pieces find mark (text.drop word.length) := by
  obtain ⟨hne, hpre⟩ := hfind text word h
  obtain ⟨w, word, rfl⟩ := exists_cons_of_ne_nil hne
  obtain ⟨rest, rfl⟩ := hpre
  rw [cons_append] at h ⊢
  rw [pieces, piecesFrom, h]
  dsimp only
  rw [piecesFrom_skip hfind]
  rfl

omit hfind in
theorem pieces_unit {u : α} {text : List α} (h : find (u :: text) = none) :
    pieces find mark (u :: text) = .unit u :: pieces find mark text := by
  rw [pieces, piecesFrom, h]
  rfl

/-- Induction over the words found: a text is empty, begins with a word, or with a unit at
which no word is found. -/
theorem find_induction {I : List α → Prop} (nil : I [])
    (word : ∀ word rest, find (word ++ rest) = some word → I rest → I (word ++ rest))
    (unit : ∀ u rest, find (u :: rest) = none → I rest → I (u :: rest)) (text : List α) :
    I text := by
  induction hn : text.length using Nat.strong_induction_on generalizing text with
  | _ n ih =>
    cases hword : find text with
    | some w =>
      obtain ⟨hne, rest, rfl⟩ := hfind text w hword
      have hlt : rest.length < n := by
        have hpos := length_pos_of_ne_nil hne
        rw [← hn, length_append]
        omega
      exact word w rest hword (ih _ hlt rest rfl)
    | none =>
      cases text with
      | nil => exact nil
      | cons u rest =>
        rw [length_cons] at hn
        exact unit u rest hword (ih rest.length (by omega) rest rfl)

theorem replace_nil : replace find mark [] = [] := by
  rw [replace, pieces_nil hfind, shown_nil]

theorem replace_word {word rest : List α} (h : find (word ++ rest) = some word) :
    replace find mark (word ++ rest) = mark word ++ replace find mark rest := by
  rw [replace, pieces_word hfind h, shown_cons, drop_left]
  rfl

omit hfind in
theorem replace_unit {u : α} {rest : List α} (h : find (u :: rest) = none) :
    replace find mark (u :: rest) = u :: replace find mark rest := by
  rw [replace, pieces_unit h, shown_cons]
  rfl

omit hfind in
theorem replace_append {front : List α} (rest : List α)
    (h : ∀ before after, front = before ++ after → after ≠ [] → find (after ++ rest) = none) :
    replace find mark (front ++ rest) = front ++ replace find mark rest := by
  induction front with
  | nil => rfl
  | cons u front ih =>
    have hhead : find (u :: (front ++ rest)) = none :=
      h [] (u :: front) rfl (cons_ne_nil _ _)
    rw [cons_append, replace_unit hhead, ih fun before after hfront hne =>
      h (u :: before) after (congrArg _ hfront) hne]
    rfl

theorem plain_pieces (text : List α) : plain (pieces find mark text) = text := by
  induction text using find_induction hfind with
  | nil => rw [pieces_nil hfind, plain_nil]
  | word word rest h ih =>
    rw [pieces_word hfind h, plain_cons, drop_left, ih]
    rfl
  | unit u rest h ih =>
    rw [pieces_unit h, plain_cons, ih]
    rfl

/-- A word all of whose units are left stands in the text where nothing is found. -/
theorem left_of_units_of_occurrence {word : List α} (hne : word ≠ []) (text : List α)
    (h : word.map .unit <:+: pieces find mark text) :
    ∃ rest, rest <:+ text ∧ word <+: rest ∧ find rest = none := by
  induction text using find_induction hfind with
  | nil =>
    rw [pieces_nil hfind] at h
    exact absurd (map_eq_nil_iff.mp (infix_nil.mp h)) hne
  | word found rest hfound ih =>
    rw [pieces_word hfind hfound, drop_left, infix_cons_iff] at h
    rcases h with hpre | hoccurs
    · obtain ⟨u, word, rfl⟩ := exists_cons_of_ne_nil hne
      rw [map_cons, cons_prefix_cons] at hpre
      exact absurd hpre.1 (by simp)
    · obtain ⟨rest', hsuffix, hword⟩ := ih hoccurs
      exact ⟨rest', hsuffix.trans (suffix_append _ _), hword⟩
  | unit u rest hfound ih =>
    have hpieces : pieces find mark (u :: rest) = .unit u :: pieces find mark rest :=
      pieces_unit hfound
    rw [hpieces, infix_cons_iff] at h
    rcases h with hpre | hoccurs
    · refine ⟨u :: rest, suffix_rfl, ?_, hfound⟩
      obtain ⟨after, hafter⟩ := hpre
      have hplain := congrArg plain hafter
      rw [← hpieces, plain_append, plain_units, plain_pieces hfind] at hplain
      exact ⟨plain after, hplain⟩
    · obtain ⟨rest', hsuffix, hword⟩ := ih hoccurs
      exact ⟨rest', hsuffix.trans (suffix_cons _ _), hword⟩

theorem marked_of_mem_pieces {word m : List α} (text : List α)
    (h : .marked word m ∈ pieces find mark text) :
    m = mark word ∧ ∃ rest, find rest = some word := by
  induction text using find_induction hfind with
  | nil => rw [pieces_nil hfind] at h; exact absurd h not_mem_nil
  | word found rest hfound ih =>
    rw [pieces_word hfind hfound, drop_left, mem_cons] at h
    rcases h with heq | hmem
    · obtain ⟨rfl, rfl⟩ := Piece.marked.inj heq
      exact ⟨rfl, _, hfound⟩
    · exact ih hmem
  | unit u rest hfound ih =>
    rw [pieces_unit hfound, mem_cons] at h
    rcases h with heq | hmem
    · exact absurd heq (by simp)
    · exact ih hmem

end Find

/-! ## Given words -/

variable [DecidableEq α]

/-- The first of some words that stands at the head of a text. -/
def firstOf (words : List (List α)) (text : List α) : Option (List α) :=
  words.find? (·.isPrefixOf text)

theorem firstOf_eq_none {words : List (List α)} :
    firstOf words text = none ↔ ∀ word ∈ words, ¬ word <+: text := by
  simp [firstOf, find?_eq_none]

theorem mem_of_firstOf {words : List (List α)} {word : List α} (h : firstOf words text = some word)
    : word ∈ words := mem_of_find?_eq_some h

theorem finds_firstOf {words : List (List α)} (h : [] ∉ words) : Finds (firstOf words) := by
  intro text word hword
  refine ⟨fun hnil => h (hnil ▸ mem_of_firstOf hword), ?_⟩
  unfold firstOf at hword
  have hpre := find?_some hword
  exact List.isPrefixOf_iff_prefix.mp hpre

theorem firstOf_singleton_self (word rest : List α) :
    firstOf [word] (word ++ rest) = some word := by
  simp [firstOf]

theorem firstOf_singleton_eq_none {word : List α} :
    firstOf [word] text = none ↔ ¬ word <+: text := by
  simp [firstOf_eq_none]

theorem no_units_left {words : List (List α)} (hwords : [] ∉ words) {mark : List α → List α}
    {word : List α} (hword : word ∈ words) (text : List α) :
    ¬ word.map .unit <:+: pieces (firstOf words) mark text := by
  intro h
  have hne : word ≠ [] := fun hnil => hwords (hnil ▸ hword)
  obtain ⟨rest, -, hpre, hnone⟩ := left_of_units_of_occurrence (finds_firstOf hwords) hne text h
  exact firstOf_eq_none.mp hnone word hword hpre

/-- The word is replaced wherever it stands, from left to right. -/
def replaceWord (word mark : List α) (text : List α) : List α :=
  replace (firstOf [word]) (fun _ => mark) text

omit [DecidableEq α] in
theorem replace_of_not_found {find : List α → Option (List α)} {mark : List α → List α}
    (hnil : find [] = none) (h : ∀ rest, rest <:+ text → rest ≠ [] → find rest = none) :
    replace find mark text = text := by
  have hempty : replace find mark ([] : List α) = [] := by
    rw [replace, pieces, piecesFrom, hnil]
    rfl
  have hstay := @replace_append α find mark text [] fun before after htext hne => by
    rw [append_nil]
    exact h after ⟨before, htext.symm⟩ hne
  rwa [append_nil, hempty, append_nil] at hstay

theorem replaceWord_of_not_occurs {word : List α} (hne : word ≠ []) (mark : List α)
    (h : ¬ word <:+: text) : replaceWord word mark text = text := by
  refine replace_of_not_found ?_ fun rest hrest _ => firstOf_singleton_eq_none.mpr fun hpre => ?_
  · exact firstOf_singleton_eq_none.mpr fun hpre => hne (prefix_nil.mp hpre)
  · exact h (hpre.isInfix.trans hrest.isInfix)

/-- `replaceWord` on pieces: only units that are not yet replaced are looked at. -/
def hide (word mark : List α) (ps : List (Piece α)) : List (Piece α) :=
  replaceWord (word.map .unit) [.marked word mark] ps

section Hide
variable {word : List α} (hne : word ≠ []) (mark : List α)
include hne

theorem finds_word : Finds (firstOf [word]) :=
  finds_firstOf fun h => hne (mem_singleton.mp h).symm

theorem finds_units : Finds (firstOf [word.map Piece.unit]) :=
  finds_word fun h => hne (map_eq_nil_iff.mp h)

/-- Induction over the occurrences of a word among the pieces. -/
theorem hide_induction {I : List (Piece α) → Prop} (nil : I [])
    (found : ∀ ps, I ps → I (word.map .unit ++ ps))
    (other : ∀ p ps, ¬ word.map .unit <+: p :: ps → I ps → I (p :: ps)) (ps : List (Piece α)) :
    I ps := by
  induction ps using find_induction (finds_units hne) with
  | nil => exact nil
  | word w ps h ih =>
    obtain rfl := mem_singleton.mp (mem_of_firstOf h)
    exact found ps ih
  | unit p ps h ih => exact other p ps (firstOf_singleton_eq_none.mp h) ih

theorem hide_nil : hide word mark [] = [] := replace_nil (finds_units hne)

theorem hide_found (ps : List (Piece α)) :
    hide word mark (word.map .unit ++ ps) = .marked word mark :: hide word mark ps :=
  replace_word (finds_units hne) (firstOf_singleton_self _ _)

omit hne in
theorem hide_other {p : Piece α} {ps : List (Piece α)} (h : ¬ word.map .unit <+: p :: ps) :
    hide word mark (p :: ps) = p :: hide word mark ps :=
  replace_unit (firstOf_singleton_eq_none.mpr h)

@[simp] theorem plain_hide (ps : List (Piece α)) : plain (hide word mark ps) = plain ps := by
  induction ps using hide_induction hne with
  | nil => rw [hide_nil hne]
  | found ps ih =>
    rw [hide_found hne, plain_cons, plain_append, plain_units, ih]
    rfl
  | other p ps h ih => rw [hide_other mark h, plain_cons, plain_cons, ih]

theorem marked_of_mem_hide {w m : List α} (ps : List (Piece α))
    (h : .marked w m ∈ hide word mark ps) : (w = word ∧ m = mark) ∨ .marked w m ∈ ps := by
  induction ps using hide_induction hne with
  | nil => rw [hide_nil hne] at h; exact .inr h
  | found ps ih =>
    rw [hide_found hne, mem_cons] at h
    rcases h with heq | hmem
    · exact .inl (Piece.marked.inj heq)
    · rcases ih hmem with heq | hps
      · exact .inl heq
      · exact .inr (mem_append_right _ hps)
  | other p ps hp ih =>
    rw [hide_other mark hp, mem_cons] at h
    rcases h with heq | hmem
    · exact .inr (heq ▸ mem_cons_self)
    · rcases ih hmem with heq | hps
      · exact .inl heq
      · exact .inr (mem_cons_of_mem _ hps)

end Hide

/-! ## Occurrences that touch no mark -/

section Clear
variable {ps : List (Piece α)}
omit [DecidableEq α]

/-- No occurrence of the word in what is shown touches a mark. -/
def Clear (word : List α) (ps : List (Piece α)) : Prop :=
  ∀ before w m after front back, ps = before ++ .marked w m :: after →
    shown ps = front ++ word ++ back →
    front.length + word.length ≤ (shown before).length ∨
      (shown before).length + m.length ≤ front.length

theorem Clear.of_append {word : List α} {ps qs : List (Piece α)} (h : Clear word (ps ++ qs)) :
    Clear word qs := by
  intro before w m after front back hqs hshown
  have hpieces : ps ++ qs = (ps ++ before) ++ .marked w m :: after := by
    rw [hqs, append_assoc]
  have hsplit : shown (ps ++ qs) = (shown ps ++ front) ++ word ++ back := by
    rw [shown_append, hshown]
    simp only [append_assoc]
  have htouch := h _ w m after _ back hpieces hsplit
  rw [shown_append, length_append, length_append] at htouch
  omega

theorem Clear.tail {word : List α} {p : Piece α} (h : Clear word (p :: ps)) :
    Clear word ps := @Clear.of_append α word [p] ps h

/-- Where a word that touches no mark stands at the head, it is made of units. -/
theorem units_of_prefix {word : List α} (h : word <+: shown ps)
    (hmarks : ∀ before w m after, ps = before ++ .marked w m :: after → word.length ≤ (shown
      before).length) : word.map .unit <+: ps := by
  induction word generalizing ps with
  | nil => exact List.nil_prefix
  | cons u word ih =>
    cases ps with
    | nil => exact absurd (prefix_nil.mp h) (cons_ne_nil _ _)
    | cons p ps =>
      cases p with
      | marked w m => exact absurd (hmarks [] w m ps rfl) (by simp)
      | unit v =>
        rw [shown_cons] at h
        obtain ⟨rfl, hword⟩ := cons_prefix_cons.mp h
        rw [map_cons, cons_prefix_cons]
        refine ⟨rfl, ih hword fun before w m after hps => ?_⟩
        have hle := hmarks (.unit u :: before) w m after (congrArg _ hps)
        rw [shown_cons, length_append, length_cons, shownOf, length_singleton] at hle
        omega

theorem Clear.units_of_prefix {word : List α} {u : α} (hclear : Clear word (.unit u :: ps))
    (h : word <+: u :: shown ps) : word.map .unit <+: .unit u :: ps := by
  refine Marking.units_of_prefix h fun before w m after hps => ?_
  obtain ⟨back, hback⟩ := h
  rcases hclear before w m after [] back hps hback.symm with hle | hle
  · simpa using hle
  · cases before with
    | nil => exact absurd hps (by simp)
    | cons p before =>
      rw [cons_append, List.cons.injEq] at hps
      rw [← hps.1, shown_cons, shownOf] at hle
      simp at hle

/-- A word that is shown and touches no mark is a run of units. -/
theorem Clear.units_of_occurrence {word : List α} (hclear : Clear word ps) (hne : word ≠ [])
    (h : word <:+: shown ps) : word.map .unit <:+: ps := by
  induction ps with
  | nil => exact absurd (infix_nil.mp h) hne
  | cons p ps ih =>
    have hrest : word <:+: shown ps → word.map .unit <:+: p :: ps := fun hoccurs =>
      infix_cons (ih hclear.tail hoccurs)
    obtain ⟨front, back, hshown⟩ := h
    cases p with
    | unit u =>
      cases front with
      | nil => exact (hclear.units_of_prefix ⟨back, hshown⟩).isInfix
      | cons v front =>
        have htail := tail_eq_of_cons_eq hshown
        exact hrest ⟨front, back, htail⟩
    | marked w m =>
      have hpos := length_pos_of_ne_nil hne
      have hle : m.length ≤ front.length := by
        rcases hclear [] w m ps front back rfl hshown.symm with hle | hle
        · rw [shown_nil, length_nil] at hle
          omega
        · simpa using hle
      have hdrop := congrArg (drop m.length) hshown
      rw [shown_cons, shownOf, drop_left, append_assoc,
        drop_append_of_le_length hle, ← append_assoc] at hdrop
      exact hrest ⟨front.drop m.length, back, hdrop⟩

end Clear

/-- **Replacing a word that touches no mark** in what is shown is hiding it among the
pieces. -/
theorem replaceWord_shown {word : List α} (hne : word ≠ []) (mark : List α) (hclear : Clear word ps)
    : replaceWord word mark (shown ps) = shown (hide word mark ps) := by
  have hfinds := finds_word hne
  induction ps using hide_induction hne with
  | nil =>
    rw [hide_nil hne]
    exact replace_nil hfinds
  | found ps ih =>
    rw [hide_found hne, shown_append, shown_units, shown_cons, ← ih hclear.of_append]
    exact replace_word hfinds (firstOf_singleton_self _ _)
  | other p ps hp ih =>
    rw [hide_other mark hp, shown_cons, shown_cons, ← ih hclear.tail]
    cases p with
    | unit u =>
      refine replace_unit (firstOf_singleton_eq_none.mpr fun hpre => ?_)
      exact hp (hclear.units_of_prefix hpre)
    | marked w m =>
      refine replace_append _ fun before after hm hafter => firstOf_singleton_eq_none.mpr ?_
      rintro ⟨back, hback⟩
      rw [shownOf] at hm
      have hshown : shown (.marked w m :: ps) = before ++ word ++ back := by
        rw [shown_cons, shownOf, hm, append_assoc, ← hback, append_assoc]
      have hpos := length_pos_of_ne_nil hne
      have hpos' := length_pos_of_ne_nil hafter
      rcases hclear [] w m ps before back rfl hshown with hle | hle
      · rw [shown_nil, length_nil] at hle
        omega
      · rw [hm, length_append, shown_nil, length_nil] at hle
        omega

/-- The words are hidden one after the other. -/
def hideAll (words : List (List α × List α)) (ps : List (Piece α)) : List (Piece α) :=
  words.foldl (fun ps w => hide w.1 w.2 ps) ps

/-- No word touches a mark when its turn comes. -/
def ClearAll : List (List α × List α) → List (Piece α) → Prop
  | [], _ => True
  | w :: words, ps => Clear w.1 ps ∧ ClearAll words (hide w.1 w.2 ps)

theorem replaceWord_foldl (hne : ∀ w ∈ words, w.1 ≠ []) (hclear : ClearAll words ps) :
    words.foldl (fun text w => replaceWord w.1 w.2 text) (shown ps) = shown (hideAll words ps) := by
  induction words generalizing ps with
  | nil => rfl
  | cons w words ih =>
    rw [foldl_cons, replaceWord_shown (hne w mem_cons_self) w.2 hclear.1]
    exact ih (fun w' hw' => hne w' (mem_cons_of_mem _ hw')) hclear.2

theorem plain_hideAll (hne : ∀ w ∈ words, w.1 ≠ []) (ps : List (Piece α)) :
    plain (hideAll words ps) = plain ps := by
  induction words generalizing ps with
  | nil => rfl
  | cons w words ih =>
    exact (ih (fun w' hw' => hne w' (mem_cons_of_mem _ hw')) _).trans
      (plain_hide (hne w mem_cons_self) w.2 ps)

theorem marked_of_mem_hideAll (hne : ∀ w ∈ words, w.1 ≠ []) {w m : List α}
    (h : .marked w m ∈ hideAll words ps) : (w, m) ∈ words ∨ .marked w m ∈ ps := by
  induction words generalizing ps with
  | nil => exact .inr h
  | cons w' words ih =>
    rcases ih (fun w hw => hne w (mem_cons_of_mem _ hw)) h with hmem | hmem
    · exact .inl (mem_cons_of_mem _ hmem)
    · rcases marked_of_mem_hide (hne w' mem_cons_self) w'.2 ps hmem with ⟨rfl, rfl⟩ | hps
      · exact .inl mem_cons_self
      · exact .inr hps

/-! ## Marks -/

end Marking

/-- Marks are made of a tag of fixed width between two fences. -/
structure MarkStyle (α : Type) where
  fence : α
  width : Nat
  isTag : α → Bool
  fence_not_tag : isTag fence = false

namespace MarkStyle
open Marking
variable {α : Type} [DecidableEq α] (style : MarkStyle α)
variable {ps : List (Piece α)} {lookup : List α → List α}
variable {tag : List α} {p : Piece α}

def markOf (tag : List α) : List α := style.fence :: (tag ++ [style.fence])

def IsTag (tag : List α) : Prop := tag.length = style.width ∧ ∀ u ∈ tag, style.isTag u = true

instance (tag : List α) : Decidable (style.IsTag tag) := inferInstanceAs (Decidable (_ ∧ _))

def IsMark (m : List α) : Prop := ∃ tag, style.IsTag tag ∧ m = style.markOf tag

/-- The mark at the head of a text. -/
def find (text : List α) : Option (List α) :=
  let tag := (text.drop 1).take style.width
  if style.IsTag tag ∧ style.markOf tag <+: text then some (style.markOf tag) else none

variable {style}

omit [DecidableEq α] in
theorem IsTag.fence_not_mem (h : style.IsTag tag) : style.fence ∉ tag := fun hmem =>
  absurd (h.2 _ hmem) (by rw [style.fence_not_tag]; exact Bool.false_ne_true)

theorem find_eq_some {text m : List α} :
    style.find text = some m ↔ style.IsMark m ∧ m <+: text := by
  unfold find
  constructor
  · intro h
    obtain ⟨⟨htag, hpre⟩, hm⟩ := ite_none_right_eq_some.mp h
    obtain rfl := some.inj hm
    exact ⟨⟨_, htag, rfl⟩, hpre⟩
  · rintro ⟨⟨tag, htag, rfl⟩, rest, rfl⟩
    have hcut : ((style.markOf tag ++ rest).drop 1).take style.width = tag := by
      rw [markOf, cons_append, drop_succ_cons, drop_zero, append_assoc, ← htag.1, take_left]
    rw [hcut, if_pos ⟨htag, prefix_append _ _⟩]

theorem finds : Finds style.find := by
  intro text m h
  obtain ⟨⟨tag, -, rfl⟩, hpre⟩ := find_eq_some.mp h
  exact ⟨cons_ne_nil _ _, hpre⟩

/-- All marks of some pieces are marks of the style. -/
def Marks (style : MarkStyle α) (ps : List (Piece α)) : Prop :=
  ∀ w m, .marked w m ∈ ps → style.IsMark m

omit [DecidableEq α] in
/-- A word without a fence that is longer than a tag cannot touch a mark. -/
theorem Marks.clear (hmarks : style.Marks ps) {word : List α} (hfence : style.fence ∉ word)
    (hlong : style.width < word.length) : Clear word ps := by
  intro before w m after front back hps hshown
  obtain ⟨tag, htag, rfl⟩ := hmarks w m (hps ▸ by simp)
  have hlength : (style.markOf tag).length = style.width + 2 := by
    rw [markOf, length_cons, length_append, htag.1, length_singleton]
  have hsplit : front ++ word ++ back = shown before ++ (style.markOf tag ++ shown after) := by
    rw [← hshown, hps, shown_append, shown_cons, shownOf]
  -- the word holds neither the place of the first fence nor that of the second
  have hout : ∀ i, (shown before ++ (style.markOf tag ++ shown after))[i]? = some style.fence →
      i < front.length ∨ front.length + word.length ≤ i := by
    intro i hi
    by_contra hin
    rw [← hsplit, getElem?_append_left (by rw [length_append]; omega),
      getElem?_append_right (by omega)] at hi
    exact hfence (mem_of_getElem? hi)
  have hfirst := hout (shown before).length (by
    rw [getElem?_append_right le_rfl, Nat.sub_self]; rfl)
  have hlast := hout ((shown before).length + (style.width + 1)) (by
    rw [getElem?_append_right (by omega), Nat.add_sub_cancel_left,
      getElem?_append_left (by omega), markOf, getElem?_cons_succ, ← htag.1,
      getElem?_concat_length])
  rw [hlength]
  omega

theorem Marks.hide (hmarks : style.Marks ps) {word mark : List α} (hne : word ≠ [])
    (hmark : style.IsMark mark) : style.Marks (hide word mark ps) := by
  intro w m hmem
  rcases marked_of_mem_hide hne mark ps hmem with ⟨-, rfl⟩ | hps
  · exact hmark
  · exact hmarks w m hps

theorem Marks.clearAll {words : List (List α × List α)} (hmarks : style.Marks ps)
    (hwords : ∀ w ∈ words, style.IsMark w.2 ∧ style.fence ∉ w.1 ∧ style.width < w.1.length) :
    ClearAll words ps := by
  induction words generalizing ps with
  | nil => trivial
  | cons w words ih =>
    obtain ⟨hmark, hfence, hlong⟩ := hwords w mem_cons_self
    have hne : w.1 ≠ [] := ne_nil_of_length_pos (Nat.zero_lt_of_lt hlong)
    exact ⟨hmarks.clear hfence hlong, ih (hmarks.hide hne hmark)
      fun w' hw' => hwords w' (mem_cons_of_mem _ hw')⟩

section
omit [DecidableEq α]

theorem infix_plain {word : List α} (h : word.map .unit <:+: ps) : word <:+: plain ps := by
  obtain ⟨front, back, rfl⟩ := h
  exact ⟨plain front, plain back, by simp⟩

/-- Marks show no word without a fence that is longer than a tag: such a word is made of
units. -/
theorem units_of_infix_replace {find : List α → Option (List α)} {mark : List α → List α}
    (hfinds : Finds find) (hmark : ∀ rest word, find rest = some word → style.IsMark (mark word))
    {word : List α} (hfence : style.fence ∉ word) (hlong : style.width < word.length)
    {text : List α} (h : word <:+: replace find mark text) :
    word.map .unit <:+: pieces find mark text := by
  have hmarks : style.Marks (pieces find mark text) := fun w m hmem => by
    obtain ⟨rfl, rest, hrest⟩ := marked_of_mem_pieces hfinds text hmem
    exact hmark rest w hrest
  have hne : word ≠ [] := ne_nil_of_length_pos (Nat.zero_lt_of_lt hlong)
  exact (hmarks.clear hfence hlong).units_of_occurrence hne h

end

/-! ## Reading marks back -/

/-- No fence and tag stand directly before a mark. -/
def Detached (style : MarkStyle α) (ps : List (Piece α)) : Prop :=
  ∀ before tag w m after, style.IsTag tag →
    ps ≠ before ++ .unit style.fence :: (tag.map .unit ++ .marked w m :: after)

omit [DecidableEq α] in
theorem Detached.tail (h : style.Detached (p :: ps)) :
    style.Detached ps := fun before tag w m after htag hps =>
  h (p :: before) tag w m after htag (congrArg _ hps)

def Unmarked (style : MarkStyle α) (text : List α) : Prop :=
  ∀ m, style.IsMark m → ¬ m <:+: text

section
omit [DecidableEq α]

theorem Unmarked.of_append {front text : List α} (h : style.Unmarked (front ++ text)) :
    style.Unmarked text := fun m hm hoccurs =>
  h m hm (hoccurs.trans (suffix_append _ _).isInfix)

theorem Marks.tail (h : style.Marks (p :: ps)) :
    style.Marks ps := fun w m hmem => h w m (mem_cons_of_mem _ hmem)

theorem units_of_tag_prefix (hmarks : style.Marks ps) (htag : style.IsTag tag)
    (h : tag <+: shown ps) : tag.map .unit <+: ps := by
  refine units_of_prefix h fun before w m after hps => ?_
  by_contra hlt
  rw [Nat.not_le] at hlt
  obtain ⟨tag', -, rfl⟩ := hmarks w m (hps ▸ by simp)
  obtain ⟨back, hback⟩ := h
  have hfence : (shown ps)[(shown before).length]? = some style.fence := by
    rw [hps, shown_append, getElem?_append_right le_rfl, Nat.sub_self]
    rfl
  rw [← hback, getElem?_append_left hlt] at hfence
  exact htag.fence_not_mem (mem_of_getElem? hfence)

end

/-- Where a mark is read that begins with a unit of an unmarked text, a fence and a tag stand
directly before a mark. -/
theorem attached_of_find {u : α} {m : List α} (hmarks : style.Marks ps)
    (hplain : style.Unmarked (plain (.unit u :: ps))) (h : style.find (u :: shown ps) = some m) :
    u = style.fence ∧ ∃ tag w m' after, style.IsTag tag ∧ m = style.markOf tag ∧
      ps = tag.map .unit ++ .marked w m' :: after := by
  obtain ⟨⟨tag, htag, rfl⟩, hpre⟩ := find_eq_some.mp h
  obtain ⟨rfl, hrest⟩ := cons_prefix_cons.mp hpre
  obtain ⟨qs, rfl⟩ := units_of_tag_prefix hmarks htag ((prefix_append _ _).trans hrest)
  rw [shown_append, shown_units, prefix_append_right_inj] at hrest
  refine ⟨rfl, ?_⟩
  cases qs with
  | nil => exact absurd (prefix_nil.mp hrest) (cons_ne_nil _ _)
  | cons q qs =>
    cases q with
    | marked w m => exact ⟨tag, w, m, qs, htag, rfl, rfl⟩
    | unit v =>
      obtain ⟨rfl, -⟩ := cons_prefix_cons.mp hrest
      refine absurd ?_ (hplain _ ⟨tag, htag, rfl⟩)
      refine ⟨[], plain qs, ?_⟩
      simp [markOf, plainOf]

/-- **Detached marks are read back**, if each is looked up as its word. -/
theorem replace_shown (hmarks : style.Marks ps) (hplain : style.Unmarked (plain ps))
    (hdetached : style.Detached ps) (hlookup : ∀ w m, .marked w m ∈ ps → lookup m = w) :
    replace style.find lookup (shown ps) = plain ps := by
  induction ps with
  | nil => exact replace_nil finds
  | cons p ps ih =>
    rw [plain_cons] at hplain
    have hrest := ih hmarks.tail hplain.of_append hdetached.tail
      fun w m hmem => hlookup w m (mem_cons_of_mem _ hmem)
    rw [shown_cons, plain_cons]
    cases p with
    | unit u =>
      have hnone : style.find (u :: shown ps) = none := by
        by_contra hsome
        obtain ⟨m, hm⟩ := ne_none_iff_exists'.mp hsome
        obtain ⟨rfl, tag, w, m', after, htag, -, rfl⟩ := attached_of_find hmarks.tail hplain hm
        exact hdetached [] tag w m' after htag rfl
      rw [← hrest]
      exact replace_unit hnone
    | marked w m =>
      have hm : style.find (m ++ shown ps) = some m :=
        find_eq_some.mpr ⟨hmarks w m mem_cons_self, prefix_append _ _⟩
      rw [← hrest]
      refine (replace_word finds hm).trans ?_
      rw [hlookup w m mem_cons_self]
      rfl

/-- A mark read from a fence and a tag of the text does not give the text. -/
theorem not_replace_attached {w later : List α} {rest : List α}
    (hfind : style.find (style.fence :: rest) = some (style.markOf tag)) (hne : w ≠ [])
    (hfence : style.fence ∉ w)
    (hlookup : lookup (style.markOf tag) = style.markOf tag ∨ lookup (style.markOf tag) ≠ [] ∧
      style.fence ∉ lookup (style.markOf tag)) :
    replace style.find lookup (style.fence :: rest) ≠ style.fence :: (tag ++ (w ++ later)) := by
  obtain ⟨after, hafter⟩ := (finds _ _ hfind).2
  rw [← hafter] at hfind ⊢
  rw [replace_word finds hfind]
  intro h
  rcases hlookup with hself | ⟨hnil, hfree⟩
  · -- the mark stays, so its second fence begins the word
    rw [hself, markOf, cons_append, append_assoc, singleton_append] at h
    have htail := append_cancel_left (List.cons.inj h).2
    obtain ⟨u, w, rfl⟩ := exists_cons_of_ne_nil hne
    exact hfence ((List.cons.inj htail).1 ▸ mem_cons_self)
  · obtain ⟨u, v, hv⟩ := exists_cons_of_ne_nil hnil
    rw [hv] at h hfree
    exact hfree ((List.cons.inj h).1 ▸ mem_cons_self)

/-- **Only then are they read back**, where words have no fences and what a mark of the pieces
is looked up as does not begin with its word, nor the word with it, unless it is the word. -/
theorem detached_of_replace_shown (hmarks : style.Marks ps) (hplain : style.Unmarked (plain ps))
    (hwords : ∀ w m, .marked w m ∈ ps → w ≠ [] ∧ style.fence ∉ w ∧ (lookup m <+: w ∨ w <+: lookup m
      → lookup m = w))
    (hother : ∀ m, style.IsMark m → lookup m = m ∨ lookup m ≠ [] ∧ style.fence ∉ lookup m)
    (h : replace style.find lookup (shown ps) = plain ps) :
    style.Detached ps ∧ ∀ w m, .marked w m ∈ ps → lookup m = w := by
  induction ps with
  | nil => exact ⟨fun before tag w m after _ hps => by simp at hps, fun w m hmem => by simp at hmem⟩
  | cons p ps ih =>
    have hplain' := hplain
    rw [plain_cons] at hplain'
    have hrest := ih hmarks.tail hplain'.of_append
      (fun w m hmem => hwords w m (mem_cons_of_mem _ hmem))
    rw [shown_cons, plain_cons] at h
    cases p with
    | unit u =>
      have hnone : style.find (u :: shown ps) = none := by
        by_contra hsome
        obtain ⟨m, hm⟩ := ne_none_iff_exists'.mp hsome
        obtain ⟨rfl, tag, w, m', after, htag, rfl, rfl⟩ := attached_of_find hmarks.tail hplain hm
        obtain ⟨hne, hfence, -⟩ := hwords w m' (by simp)
        exact not_replace_attached hm hne hfence (hother _ ⟨tag, htag, rfl⟩)
          (by simpa [plainOf, shownOf] using h)
      have hcons : u :: replace style.find lookup (shown ps) = u :: plain ps :=
        (replace_unit hnone).symm.trans h
      obtain ⟨hdetached, hlookup⟩ := hrest (List.cons.inj hcons).2
      refine ⟨?_, fun w m hmem => ?_⟩
      · intro before tag w m after htag hps
        cases before with
        | cons p before => exact hdetached before tag w m after htag (List.cons.inj hps).2
        | nil =>
          obtain ⟨hu, rfl⟩ := List.cons.inj hps
          obtain rfl := Piece.unit.inj hu
          obtain ⟨tag', -, rfl⟩ := hmarks w m (by simp)
          have hsome : style.find (style.fence :: shown (tag.map .unit ++
              .marked w (style.markOf tag') :: after)) = some (style.markOf tag) :=
            find_eq_some.mpr ⟨⟨tag, htag, rfl⟩, tag' ++ style.fence :: shown after, by
              simp [markOf, shownOf]⟩
          rw [hsome] at hnone
          exact some_ne_none _ hnone
      · rcases mem_cons.mp hmem with heq | hmem
        · exact absurd heq (by simp)
        · exact hlookup w m hmem
    | marked w m =>
      have hm : style.find (m ++ shown ps) = some m :=
        find_eq_some.mpr ⟨hmarks w m mem_cons_self, prefix_append _ _⟩
      have happend : lookup m ++ replace style.find lookup (shown ps) = w ++ plain ps :=
        (replace_word finds hm).symm.trans h
      have hw : lookup m = w := (hwords w m mem_cons_self).2.2
        (List.prefix_or_prefix_of_prefix ⟨_, happend⟩ (prefix_append _ _))
      rw [hw, append_cancel_left_eq] at happend
      obtain ⟨hdetached, hlookup⟩ := hrest happend
      refine ⟨?_, fun w' m' hmem => ?_⟩
      · intro before tag w' m' after htag hps
        cases before with
        | cons p before => exact hdetached before tag w' m' after htag (List.cons.inj hps).2
        | nil => exact absurd (List.cons.inj hps).1 (by simp)
      · rcases mem_cons.mp hmem with heq | hmem
        · obtain ⟨rfl, rfl⟩ := Piece.marked.inj heq
          exact hw
        · exact hlookup w' m' hmem

end MarkStyle
end GajaeCode
