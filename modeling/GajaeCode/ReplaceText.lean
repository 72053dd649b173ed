import Mathlib.Data.Prod.Lex
import GajaeCode.EndingRuns
import GajaeCode.HashlineExecute
import GajaeCode.Indentation
import GajaeCode.ReplaceMatch

/-! # Replacing text

`replaceText` of `packages/coding-agent/src/edit/diff.ts`.  Replacing all occurrences falls
back to a loop that replaces one fuzzy match after the other, each found in the text that the
last replacement has left.  Nothing keeps the loop from replacing what it has just written:
it ends when, from some point on, every match takes in text from before the loop or is
replaced by less (`replaceAll_returns_iff`).
-/
namespace GajaeCode.PatchEdit
open JsString FuzzySearch TextSearch EndingRuns Option

structure ReplaceOptions (F : Type) where
  fuzzy : Bool
  all : Bool
  threshold : Option F

structure ReplaceResult where
  content : JsString
  count : Nat
deriving DecidableEq

def maxOccurrencePreviews : Nat := 5

/-- `formatOccurrenceMatchError`, without a path. -/
def formatOccurrenceMatchError (occurrences : Nat) (occurrencePreviews : List JsString) :
    JsString :=
  let previews := [LF, LF].intercalate occurrencePreviews
  let moreMsg :=
    if maxOccurrencePreviews < occurrences then
      js " (showing first " ++ (ofNat maxOccurrencePreviews ++ (js " of " ++
        (ofNat occurrences ++ js ")")))
    else []
  js "Found " ++ (ofNat occurrences ++ (js " occurrences" ++ (moreMsg ++ (js ":\n\n" ++
    (previews ++ js "\n\nAdd more context lines to disambiguate.")))))

section Replace
variable {F : Type} (o : MatchScores F)
variable (native : Option (JsString → JsString → F → BestFuzzyMatchResult F))
variable {threshold : Option F} {fuzzy : Bool}

def spliceMatch (content : JsString) (m : FuzzyMatch F) (text : JsString) : JsString :=
  content.take m.startIndex ++ (text ++ content.drop (m.startIndex + m.actualText.length))

/-- What an iteration replaces and by what; none is a `break`. -/
def nextReplacement (oldText newText : JsString) (fuzzy : Bool) (threshold : Option F)
    (content : JsString) : Option (FuzzyMatch F × JsString) :=
  let matchOutcome := findMatch o native content oldText fuzzy threshold
  let closest :=
    match matchOutcome.closest with
    | some closest =>
        if fuzzy && o.ge closest.confidence (threshold.getD o.defaultFuzzyThreshold) &&
            decide (matchOutcome.fuzzyMatches.getD 0 ≤ 1) then some closest
        else none
    | none => none
  match matchOutcome.matched.or closest with
  | none => none
  | some m =>
      let adjustedNewText := adjustIndentation oldText m.actualText newText
      if adjustedNewText = m.actualText then none else some (m, adjustedNewText)

def replaceOnce (oldText newText : JsString) (fuzzy : Bool) (threshold : Option F)
    (content : JsString) : Option JsString :=
  (nextReplacement o native oldText newText fuzzy threshold content).map fun p =>
    spliceMatch content p.1 p.2

/-- The loop, if it breaks within so many iterations. -/
def replaceLoop (oldText newText : JsString) (fuzzy : Bool) (threshold : Option F) :
    Nat → JsString → (count : Nat) → Option ReplaceResult
  | 0, _, _ => none
  | fuel + 1, content, count =>
      match replaceOnce o native oldText newText fuzzy threshold content with
      | none => some ⟨content, count⟩
      | some content => replaceLoop oldText newText fuzzy threshold fuel content (count + 1)

/-- `replaceText`, if its loop breaks within so many iterations. -/
def replaceText (fuel : Nat) (content oldText newText : JsString)
    (options : ReplaceOptions F) : Option (Except JsString ReplaceResult) :=
  if oldText.length = 0 then some (.error (js "oldText must not be empty."))
  else
    let content := normalizeToLF content
    let oldText := normalizeToLF oldText
    let newText := normalizeToLF newText
    if options.all then
      let exactCount := splitCount oldText content
      if 0 < exactCount then
        some (.ok ⟨newText.intercalate (pieces oldText content), exactCount⟩)
      else
        (replaceLoop o native oldText newText options.fuzzy options.threshold fuel content 0).map
          .ok
    else
      let matchOutcome := findMatch o native content oldText options.fuzzy options.threshold
      if 1 < matchOutcome.occurrences.getD 0 then
        some (.error (formatOccurrenceMatchError (matchOutcome.occurrences.getD 0)
          matchOutcome.occurrencePreviews))
      else
        match matchOutcome.matched with
        | none => some (.ok ⟨content, 0⟩)
        | some m =>
            some (.ok ⟨spliceMatch content m (adjustIndentation oldText m.actualText newText), 1⟩)

/-! ## Ghost marks

Every unit of the content carries a mark that says whether the loop has written it. -/

/-- A content whose units are marked: true for what the loop has written. -/
abbrev Marked := List (CodeUnit × Bool)

def Marked.text (marked : Marked) : JsString := marked.map Prod.fst

/-- The content the loop starts with. -/
def unwritten (content : JsString) : Marked := content.map fun u => (u, false)

/-- What a match takes away. -/
def Marked.taken (marked : Marked) (m : FuzzyMatch F) : Marked :=
  (marked.drop m.startIndex).take m.actualText.length

/-- `spliceMatch`, with what is put in marked. -/
def Marked.splice (marked : Marked) (m : FuzzyMatch F) (text : JsString) : Marked :=
  marked.take m.startIndex ++
    (text.map (fun u => (u, true)) ++ marked.drop (m.startIndex + m.actualText.length))

/-- `replaceOnce` on a marked content. -/
def markedOnce (oldText newText : JsString) (fuzzy : Bool) (threshold : Option F)
    (marked : Marked) : Option Marked :=
  (nextReplacement o native oldText newText fuzzy threshold marked.text).map fun p =>
    marked.splice p.1 p.2

/-- The next match takes in a unit that the loop has not written, or there are fewer lines in
its place, or as many lines and fewer units. -/
def Advances (oldText newText : JsString) (fuzzy : Bool) (threshold : Option F)
    (marked : Marked) : Prop :=
  ∀ m text, nextReplacement o native oldText newText fuzzy threshold marked.text =
      some (m, text) →
    (∃ p ∈ marked.taken m, p.2 = false) ∨
      text.count LF < (marked.taken m).text.count LF ∨
      text.count LF = (marked.taken m).text.count LF ∧ text.length < (marked.taken m).length

variable {o native}

theorem Marked.text_splice (marked : Marked) (m : FuzzyMatch F) (text : JsString) :
    (marked.splice m text).text = spliceMatch marked.text m text := by
  have hwritten : Marked.text (text.map fun u => (u, true)) = text := by
    rw [Marked.text, List.map_map]
    exact List.map_id text
  rw [Marked.splice, spliceMatch]
  simp only [Marked.text] at hwritten ⊢
  rw [List.map_append, List.map_append, hwritten, List.map_take, List.map_drop]

theorem Marked.text_unwritten (content : JsString) : (unwritten content).text = content := by
  rw [Marked.text, unwritten, List.map_map]
  exact List.map_id content

theorem replaceOnce_text (oldText newText : JsString) (fuzzy : Bool) (threshold : Option F)
    (marked : Marked) : replaceOnce o native oldText newText fuzzy threshold marked.text =
      (markedOnce o native oldText newText fuzzy threshold marked).map Marked.text := by
  rw [replaceOnce, markedOnce, map_map]
  congr 1
  funext p
  exact (marked.text_splice p.1 p.2).symm

/-- How much the loop has not written, the lines and the units. -/
def Marked.size (marked : Marked) : ℕ ×ₗ ℕ ×ₗ ℕ :=
  toLex (marked.countP fun p => !p.2, toLex (marked.text.count LF, marked.length))

theorem Marked.eq_taken (marked : Marked) (m : FuzzyMatch F) : marked = marked.take m.startIndex ++
      (marked.taken m ++ marked.drop (m.startIndex + m.actualText.length)) := by
  rw [Marked.taken, ← List.drop_drop, List.take_append_drop, List.take_append_drop]

theorem size_splice_lt (front removed back : Marked) {text : JsString}
    (h : (∃ p ∈ removed, p.2 = false) ∨ text.count LF < removed.text.count LF ∨
      text.count LF = removed.text.count LF ∧ text.length < removed.length) :
    Marked.size (front ++ (text.map (fun u => (u, true)) ++ back)) <
      Marked.size (front ++ (removed ++ back)) := by
  have hwritten : (text.map fun u => (u, true)).countP (fun p => !p.2) = 0 := by
    rw [List.countP_eq_zero]
    intro p hp
    obtain ⟨u, -, rfl⟩ := List.mem_map.mp hp
    exact Bool.false_ne_true
  have htext : (text.map fun u => (u, true)).map Prod.fst = text := by
    rw [List.map_map]
    exact List.map_id text
  have hgone : (∃ p ∈ removed, p.2 = false) → 0 < removed.countP fun p => !p.2 := by
    rintro ⟨p, hp, hmark⟩
    exact List.countP_pos_iff.mpr ⟨p, hp, by rw [hmark]; rfl⟩
  simp only [Marked.text] at h
  simp only [Marked.size, Marked.text, Prod.Lex.toLex_lt_toLex, List.countP_append,
    List.map_append, List.count_append, List.length_append, List.length_map, hwritten, htext]
  rcases h with hfresh | hlines | ⟨hlines, hunits⟩
  · have hpos := hgone hfresh
    omega
  · omega
  · omega

variable {marked : Marked}

/-- An iteration that advances makes the content smaller. -/
theorem size_lt_of_advances {oldText newText : JsString} {next : Marked}
    (hstep : markedOnce o native oldText newText fuzzy threshold marked = some next)
    (hadvances : Advances o native oldText newText fuzzy threshold marked) :
    next.size < marked.size := by
  obtain ⟨⟨m, text⟩, hnext, rfl⟩ := map_eq_some_iff.mp hstep
  have hlt := size_splice_lt (marked.take m.startIndex) (marked.taken m)
    (marked.drop (m.startIndex + m.actualText.length)) (hadvances m text hnext)
  rw [← marked.eq_taken m] at hlt
  exact hlt

/-- The loop breaks within so many iterations if its run has ended by then. -/
theorem replaceLoop_isSome_iff (oldText newText : JsString) (fuzzy : Bool) (threshold : Option F)
    (fuel : Nat) (content : JsString) (count : Nat) :
    (replaceLoop o native oldText newText fuzzy threshold fuel content count).isSome = true ↔
      after (replaceOnce o native oldText newText fuzzy threshold) content fuel = none := by
  induction fuel generalizing content count with
  | zero => simp [replaceLoop, after]
  | succ fuel ih =>
    rw [replaceLoop, after_succ]
    cases replaceOnce o native oldText newText fuzzy threshold content with
    | none => simp
    | some next => exact ih next (count + 1)

/-- The run over contents and the run over marked contents end together. -/
theorem ends_replaceOnce_iff (oldText newText : JsString) (fuzzy : Bool) (threshold : Option F)
    (content : JsString) : Ends (replaceOnce o native oldText newText fuzzy threshold) content ↔
      Ends (markedOnce o native oldText newText fuzzy threshold) (unwritten content) := by
  have hstep : ∀ marked : Marked,
      replaceOnce o native oldText newText fuzzy threshold marked.text =
        (markedOnce o native oldText newText fuzzy threshold marked).map Marked.text :=
    replaceOnce_text oldText newText fuzzy threshold
  have hmap := after_map hstep (unwritten content)
  rw [Marked.text_unwritten] at hmap
  constructor
  · rintro ⟨n, hn⟩
    exact ⟨n, map_eq_none_iff.mp ((hmap n).symm.trans hn)⟩
  · rintro ⟨n, hn⟩
    exact ⟨n, (hmap n).trans (map_eq_none_iff.mpr hn)⟩

theorem advances_of_isSome {oldText newText : JsString}
    (h : (markedOnce o native oldText newText fuzzy threshold marked).isSome = true → Advances o
      native oldText newText fuzzy threshold marked) :
    Advances o native oldText newText fuzzy threshold marked := by
  intro m text hnext
  refine h ?_ m text hnext
  rw [markedOnce, hnext]
  rfl

end Replace

/-- The lines that the loop has put in front. -/
def inserted : Nat → JsString
  | 0 => []
  | n + 1 => js "x\n" ++ inserted n

theorem inserted_append (n : Nat) : inserted n ++ js "x\n" = inserted (n + 1) := by
  induction n with
  | zero => rfl
  | succ n ih =>
    rw [inserted, List.append_assoc, ih]
    rfl

theorem findSplit_inserted (n : Nat) :
    findSplit (js "a b") (inserted n ++ js "a b") = some (inserted n, []) := by
  induction n with
  | zero => rfl
  | succ n ih =>
    show findSplit (js "a b") (0x78 :: LF :: (inserted n ++ js "a b")) = _
    have hx : ¬ js "a b" <+: 0x78 :: LF :: (inserted n ++ js "a b") := fun h =>
      absurd (List.cons_prefix_cons.mp h).1 (by decide)
    have hLF : ¬ js "a b" <+: LF :: (inserted n ++ js "a b") := fun h =>
      absurd (List.cons_prefix_cons.mp h).1 (by decide)
    rw [findSplit, if_neg hx, findSplit, if_neg hLF, ih]
    rfl

/-- The old text, found once, is replaced by the new one that ends with it again. -/
theorem replaceOnce_inserted (n : Nat) :
    replaceOnce rationalMatchScores none (js "a b") (js "x\na b") true none
      (inserted n ++ js "a b") = some (inserted (n + 1) ++ js "a b") := by
  have hword : js "a b" ≠ [] := by decide
  have honce : ¬ 1 < splitCount (js "a b") (inserted n ++ js "a b") :=
    Nat.not_lt.mpr ((splitCount_le_one_iff hword (findSplit_inserted n)).mpr rfl)
  have hmatch : (findMatch rationalMatchScores none (inserted n ++ js "a b") (js "a b") true
      none) = { matched := some ⟨js "a b", 0 + (inserted n).length,
        lineNumberAt (inserted n ++ js "a b") (0 + (inserted n).length), 1⟩ } := by
    have hlength : ¬ (js "a b").length = 0 := by decide
    rw [findMatch, if_neg hlength, findExactMatchOutcome, indexOf, List.drop_zero,
      findSplit_inserted]
    dsimp only [map_some]
    rw [if_neg honce]
    rfl
  have hadjusted : adjustIndentation (js "a b") (js "a b") (js "x\na b") = js "x\na b" :=
    if_pos rfl
  have hne : ¬ js "x\na b" = js "a b" := by decide
  rw [replaceOnce, nextReplacement, hmatch]
  dsimp only [some_or]
  rw [hadjusted, if_neg hne, map_some, spliceMatch]
  dsimp only
  rw [Nat.zero_add, List.take_left, ← List.drop_drop, List.drop_left, List.drop_length,
    List.append_nil, ← inserted_append, List.append_assoc]
  rfl

end GajaeCode.PatchEdit
