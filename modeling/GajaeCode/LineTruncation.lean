import GajaeCode.UnpairedSurrogates

/-! # Truncation by whole lines

`truncateHead` and `truncateTail` of
`packages/coding-agent/src/session/streaming-output.ts`.  Both walk over the lines of a content
from one end, with two cursors into the text, and keep the longest run of whole lines within
the budgets of lines and of bytes.

The walk from the end asks for the last line feed before its cursor, and that question is
answered for position 0 when the cursor stands at 0: with the line feed just walked over.  But
the cursor gets there only when all the rest is kept, and then no byte is left for it.
-/
namespace GajaeCode
open JsString List
variable {content l : JsString} {kept : List JsString} {maxLines maxBytes : Nat}
variable (ls : List JsString)
variable {todo rest : List JsString} {fuel : Nat}

/-- `truncatedBy` of a result. -/
inductive TruncatedBy where
  | lines
  | bytes
  | middle
  deriving DecidableEq

structure TruncationResult where
  content : JsString
  truncated : Option Bool := none
  truncatedBy : Option TruncatedBy := none
  totalLines : Nat
  totalBytes : Nat
  outputLines : Option Nat := none
  outputBytes : Option Nat := none
  elidedBytes : Option Nat := none
  elidedLines : Option Nat := none
  lastLinePartial : Option Bool := none
  firstLineExceedsLimit : Option Bool := none
  deriving DecidableEq

def defaultMaxLines : Nat := 3000

def defaultMaxBytes : Nat := 50 * 1024

structure TruncationOptions where
  maxLines : Option Nat := none
  maxBytes : Option Nat := none
  maxHeadBytes : Option Int := none
  maxHeadLines : Option Int := none

/-- `content.indexOf(NL, pos)`. -/
def indexOfNL (content : JsString) (pos : Nat) : Option Nat :=
  ((content.drop pos).idxOf? LF).map (pos + ·)

/-- `content.lastIndexOf(NL, pos)`. -/
def lastIndexOfNL (content : JsString) : Nat → Option Nat
  | 0 => if content[0]? = some LF then some 0 else none
  | pos + 1 => if content[pos + 1]? = some LF then some (pos + 1) else lastIndexOfNL content pos

/-- `content.slice(start, stop)`. -/
def slice (content : JsString) (start stop : Nat) : JsString := (content.take stop).drop start

/-- `noTruncResult`, with the totals given. -/
def noTruncResult (content : JsString) (totalLines totalBytes : Nat) : TruncationResult :=
  { content, totalLines, totalBytes }

/-- `includedLines > 0 ? 1 : 0`. -/
def separatorBytes (includedLines : Nat) : Nat := if 0 < includedLines then 1 else 0

/-- What the loop of `truncateHead` has taken, and its cursor. -/
structure HeadScan where
  includedLines : Nat
  bytesUsed : Nat
  cutIndex : Nat
  cursor : Nat
  truncatedBy : TruncatedBy
  deriving DecidableEq

/-- The loop, for at most `fuel` more lines.  No result: the first line alone exceeds the
limit. -/
def headLoop (content : JsString) (maxBytes : Nat) : Nat → HeadScan → Option HeadScan
  | 0, st => some st
  | fuel + 1, st =>
    let nl := indexOfNL content st.cursor
    let lineEnd := nl.getD content.length
    let sepBytes := separatorBytes st.includedLines
    let remaining : Int := maxBytes - st.bytesUsed - sepBytes
    let full := if st.includedLines = 0 then none else some { st with truncatedBy := .bytes }
    if remaining < 0 then some { st with truncatedBy := .bytes }
    -- more code units than bytes are left: the bytes cannot be fewer
    else if remaining < ((lineEnd - st.cursor : Nat) : Int) then full
    else
      let lineBytes := byteLength (slice content st.cursor lineEnd)
      if remaining < (lineBytes : Int) then full
      else
        let st := { st with
          bytesUsed := st.bytesUsed + (sepBytes + lineBytes)
          includedLines := st.includedLines + 1
          cutIndex := lineEnd }
        match nl with
        | none => some st
        | some at_ => headLoop content maxBytes fuel { st with cursor := at_ + 1 }

def truncateHead (content : JsString) (options : TruncationOptions) : TruncationResult :=
  let maxLines := options.maxLines.getD defaultMaxLines
  let maxBytes := options.maxBytes.getD defaultMaxBytes
  let totalBytes := byteLength content
  let totalLines := countNewlines content + 1
  if totalLines ≤ maxLines ∧ totalBytes ≤ maxBytes then
    noTruncResult content totalLines totalBytes
  else
    match headLoop content maxBytes maxLines ⟨0, 0, 0, 0, .lines⟩ with
    | none =>
      { content := []
        truncated := some true
        truncatedBy := some .bytes
        totalLines
        totalBytes
        outputLines := some 0
        outputBytes := some 0
        lastLinePartial := some false
        firstLineExceedsLimit := some true }
    | some st =>
      { content := content.take st.cutIndex
        truncated := some true
        truncatedBy := some (if maxLines ≤ st.includedLines ∧ st.bytesUsed ≤ maxBytes then .lines
          else st.truncatedBy)
        totalLines
        totalBytes
        outputLines := some st.includedLines
        outputBytes := some st.bytesUsed
        lastLinePartial := some false
        firstLineExceedsLimit := some false }

/-- What the loop of `truncateTail` has taken, and where its current line ends. -/
structure TailScan where
  includedLines : Nat
  bytesUsed : Nat
  startIndex : Nat
  stop : Nat
  truncatedBy : TruncatedBy
  deriving DecidableEq

/-- The loop, for at most `fuel` more lines; or, when the last line alone exceeds the
limit, the end of that line. -/
def tailLoop (content : JsString) (maxBytes : Nat) :
    Nat → TailScan → ByteTruncationResult ⊕ TailScan
  | 0, st => .inr st
  | fuel + 1, st =>
    let nl := lastIndexOfNL content (st.stop - 1)
    let lineStart : Nat := (nl.map (· + 1)).getD 0
    let sepBytes := separatorBytes st.includedLines
    let remaining : Int := maxBytes - st.bytesUsed - sepBytes
    if remaining < 0 then .inr { st with truncatedBy := .bytes }
    else if remaining < (st.stop - lineStart : Int) then
      if st.includedLines = 0 then
        let windowStart := max lineStart (st.stop - maxBytes)
        .inl (truncateTailBytes (slice content windowStart st.stop) maxBytes)
      else .inr { st with truncatedBy := .bytes }
    else
      let lineText := slice content lineStart st.stop
      let lineBytes := byteLength lineText
      if remaining < (lineBytes : Int) then
        if st.includedLines = 0 then .inl (truncateTailBytes lineText maxBytes)
        else .inr { st with truncatedBy := .bytes }
      else
        let st := { st with
          bytesUsed := st.bytesUsed + (sepBytes + lineBytes)
          includedLines := st.includedLines + 1
          startIndex := lineStart }
        match nl with
        | none => .inr st
        | some at_ => tailLoop content maxBytes fuel { st with stop := at_ }

def truncateTail (content : JsString) (options : TruncationOptions) : TruncationResult :=
  let maxLines := options.maxLines.getD defaultMaxLines
  let maxBytes := options.maxBytes.getD defaultMaxBytes
  let totalBytes := byteLength content
  let totalLines := countNewlines content + 1
  if totalLines ≤ maxLines ∧ totalBytes ≤ maxBytes then
    noTruncResult content totalLines totalBytes
  else
    match tailLoop content maxBytes maxLines ⟨0, 0, content.length, content.length, .lines⟩ with
    | .inl tail =>
      { content := tail.text
        truncated := some true
        truncatedBy := some .bytes
        totalLines
        totalBytes
        outputLines := some 1
        outputBytes := some tail.bytes
        lastLinePartial := some true
        firstLineExceedsLimit := some false }
    | .inr st =>
      { content := content.drop st.startIndex
        truncated := some true
        truncatedBy := some (if maxLines ≤ st.includedLines ∧ st.bytesUsed ≤ maxBytes then .lines
          else st.truncatedBy)
        totalLines
        totalBytes
        outputLines := some st.includedLines
        outputBytes := some st.bytesUsed
        lastLinePartial := some false
        firstLineExceedsLimit := some false }

/-! ## Runs of lines -/

/-- The longest run of first lines within both budgets. -/
structure IsLongestHead (maxLines maxBytes : Nat) (all kept : List JsString) : Prop where
  run : kept <+: all
  lines : kept.length ≤ maxLines
  bytes : byteLength (unlines kept) ≤ maxBytes
  longest : ∀ more, more <+: all → more.length ≤ maxLines →
    byteLength (unlines more) ≤ maxBytes → more.length ≤ kept.length

/-- The longest run of last lines within both budgets. -/
structure IsLongestEnd (maxLines maxBytes : Nat) (all kept : List JsString) : Prop where
  run : kept <:+ all
  lines : kept.length ≤ maxLines
  bytes : byteLength (unlines kept) ≤ maxBytes
  longest : ∀ more, more <:+ all → more.length ≤ maxLines →
    byteLength (unlines more) ≤ maxBytes → more.length ≤ kept.length

/-- The bytes of joined lines: their own, and one between two of them. -/
def joinedBytes (ls : List JsString) : Nat := (ls.map byteLength).sum + (ls.length - 1)

theorem byteLength_unlines : byteLength (unlines ls) = joinedBytes ls := by
  induction ls with
  | nil => rfl
  | cons l ls ih =>
    cases ls with
    | nil => simp [joinedBytes]
    | cons l' ls =>
      rw [unlines_cons_cons, byteLength_append_LF, ih]
      simp only [joinedBytes, map_cons, sum_cons, length_cons]
      omega

theorem joinedBytes_append (ls ls' : List JsString) :
    joinedBytes (ls ++ ls') = joinedBytes ls + joinedBytes ls' +
      (if ls = [] ∨ ls' = [] then 0 else 1) := by
  rcases ls with _ | ⟨l, ls⟩
  · simp [joinedBytes]
  · rcases ls' with _ | ⟨l', ls'⟩
    · simp [joinedBytes]
    · simp only [joinedBytes, map_append, sum_append, length_append,
        length_cons, reduceCtorEq, or_self, if_false]
      omega

theorem joinedBytes_singleton (l : JsString) : joinedBytes [l] = byteLength l := by
  simp [joinedBytes]

section
variable (hlines : kept.length ≤ maxLines) (hbytes : joinedBytes kept ≤ maxBytes)
include hlines hbytes

/-- A run cannot grow when the budget of lines is used up, when there is no more line, or
when the next line does not fit. -/
theorem isLongestHead_of_stop
    (hstop : kept.length = maxLines ∨ rest = [] ∨ ∃ l rest', rest = l :: rest' ∧ maxBytes <
      joinedBytes (kept ++ [l])) : IsLongestHead maxLines maxBytes (kept ++ rest) kept := by
  refine ⟨prefix_append _ _, hlines, by rwa [byteLength_unlines], ?_⟩
  intro more hmore hmoreLines hmoreBytes
  rcases hstop with hfull | rfl | ⟨l, rest', rfl, hover⟩
  · omega
  · rw [append_nil] at hmore
    exact hmore.length_le
  · by_contra hlonger
    have hfront : kept ++ [l] <+: kept ++ l :: rest' :=
      ⟨rest', by rw [append_assoc, singleton_append]⟩
    have hnext : kept ++ [l] <+: more := by
      apply prefix_of_prefix_length_le hfront hmore
      rw [length_append, length_singleton]
      omega
    obtain ⟨further, rfl⟩ := hnext
    rw [byteLength_unlines, joinedBytes_append] at hmoreBytes
    omega

theorem isLongestEnd_of_stop
    (hstop : kept.length = maxLines ∨ rest = [] ∨ ∃ l rest', rest = rest' ++ [l] ∧ maxBytes <
      joinedBytes (l :: kept)) : IsLongestEnd maxLines maxBytes (rest ++ kept) kept := by
  refine ⟨suffix_append _ _, hlines, by rwa [byteLength_unlines], ?_⟩
  intro more hmore hmoreLines hmoreBytes
  rcases hstop with hfull | rfl | ⟨l, rest', rfl, hover⟩
  · omega
  · exact hmore.length_le
  · by_contra hlonger
    have hback : l :: kept <:+ rest' ++ [l] ++ kept :=
      ⟨rest', by rw [append_assoc, singleton_append]⟩
    have hnext : l :: kept <:+ more := by
      apply suffix_of_suffix_length_le hback hmore
      rw [length_cons]
      omega
    obtain ⟨further, rfl⟩ := hnext
    rw [byteLength_unlines, joinedBytes_append] at hmoreBytes
    omega

end

/-- What stands before the line that follows some lines. -/
def lead (ls : List JsString) : JsString := if ls = [] then [] else unlines ls ++ [LF]

/-- What stands behind the line that some lines follow. -/
def trail (ls : List JsString) : JsString := if ls = [] then [] else LF :: unlines ls

theorem lead_append_singleton (l : JsString) : lead (ls ++ [l]) = lead ls ++ (l ++ [LF]) := by
  rw [lead, lead, if_neg (by simp)]
  split_ifs with h
  · rw [h]
    simp
  · rw [unlines_append h (cons_ne_nil _ _)]
    simp

theorem unlines_eq_lead (l : JsString) (rest : List JsString) :
    unlines (ls ++ l :: rest) = lead ls ++ (l ++ trail rest) := by
  have hrest : unlines (l :: rest) = l ++ trail rest := by
    rw [trail]
    split_ifs with h
    · rw [h, unlines_singleton, append_nil]
    · rw [unlines_cons_of_ne_nil l h]
  rw [lead]
  split_ifs with h
  · rw [h, nil_append, nil_append, hrest]
  · rw [unlines_append h (cons_ne_nil _ _), hrest, append_assoc, singleton_append]

theorem unlines_concat (l : JsString) : unlines (ls ++ [l]) = lead ls ++ l := by
  rw [unlines_eq_lead, trail, if_pos rfl, append_nil]

theorem slice_mid (front mid back : JsString) :
    slice (front ++ (mid ++ back)) front.length (front.length + mid.length) = mid := by
  rw [slice, ← append_assoc, ← length_append, take_left, drop_left]

theorem idxOf?_append_cons (hl : LF ∉ l) (rest : JsString) :
    (l ++ LF :: rest).idxOf? LF = some l.length := by
  induction l with
  | nil => simp [idxOf?_cons]
  | cons u l ih =>
    rw [mem_cons, not_or] at hl
    rw [cons_append, idxOf?_cons, ih hl.2]
    have hu : (u == LF) = false := beq_false_of_ne (Ne.symm hl.1)
    simp [hu]

theorem indexOfNL_lead (hl : LF ∉ l) (rest : List JsString) :
    indexOfNL (lead ls ++ (l ++ trail rest)) (lead ls).length =
      if rest = [] then none else some ((lead ls).length + l.length) := by
  rw [indexOfNL, drop_left, trail]
  split_ifs with h
  · rw [append_nil, idxOf?_eq_none_iff.mpr hl]
    rfl
  · rw [idxOf?_append_cons hl]
    rfl

/-! ## The loop from the head -/

/-- What a finished loop has found: the first line alone is too long, or the longest run
of first lines. -/
def HeadOutcome (maxLines maxBytes : Nat) (all : List JsString) : Option HeadScan → Prop
  | none => ∃ l rest, all = l :: rest ∧ maxBytes < byteLength l
  | some st => ∃ kept, kept ≠ [] ∧ IsLongestHead maxLines maxBytes all kept ∧
      st.includedLines = kept.length ∧ st.bytesUsed = joinedBytes kept ∧
      st.cutIndex = (unlines kept).length

theorem joinedBytes_concat (kept : List JsString) (l : JsString) : joinedBytes (kept ++ [l]) =
      joinedBytes kept + (separatorBytes kept.length + byteLength l) := by
  rw [joinedBytes_append, joinedBytes_singleton, separatorBytes]
  rcases kept with _ | ⟨k, kept⟩
  · simp [joinedBytes]
  · simp
    omega

/-- The state of the loop when it has kept some lines. -/
def HeadScan.after (kept : List JsString) (truncatedBy : TruncatedBy) : HeadScan where
  includedLines := kept.length
  bytesUsed := joinedBytes kept
  cutIndex := (unlines kept).length
  cursor := (lead kept).length
  truncatedBy

/-- **The loop from the head.**  It keeps the lines before the cursor, and they fit. -/
theorem headLoop_outcome (hno : ∀ l ∈ kept ++ todo, LF ∉ l) (htodo : todo ≠ [])
    (hfuel : kept.length + fuel = maxLines) (hstart : kept ≠ [] ∨ 0 < fuel)
    (hbytes : joinedBytes kept ≤ maxBytes) (by_ : TruncatedBy) :
    HeadOutcome maxLines maxBytes (kept ++ todo)
      (headLoop (unlines (kept ++ todo)) maxBytes fuel (.after kept by_)) := by
  induction fuel generalizing kept todo with
  | zero =>
    have hne : kept ≠ [] := hstart.resolve_right (lt_irrefl 0)
    exact ⟨kept, hne, isLongestHead_of_stop (by omega) hbytes (.inl (by omega)), rfl, rfl, rfl⟩
  | succ fuel ih =>
    obtain ⟨l, todo', rfl⟩ := exists_cons_of_ne_nil htodo
    have hl : LF ∉ l := hno l (mem_append_right _ mem_cons_self)
    have hnext := joinedBytes_concat kept l
    have hsize := length_le_byteSize l
    rw [← byteLength_eq] at hsize
    -- where the next line does not fit, the loop ends here
    have hover : maxBytes < joinedBytes (kept ++ [l]) → kept ≠ [] →
        HeadOutcome maxLines maxBytes (kept ++ l :: todo') (some (.after kept .bytes)) :=
      fun hlarge hne => ⟨kept, hne, isLongestHead_of_stop (by omega) hbytes
        (.inr (.inr ⟨l, todo', rfl, hlarge⟩)), rfl, rfl, rfl⟩
    have hfull : maxBytes < joinedBytes (kept ++ [l]) →
        HeadOutcome maxLines maxBytes (kept ++ l :: todo')
          (if kept.length = 0 then none else some (.after kept .bytes)) := by
      intro hlarge
      split_ifs with hzero
      · obtain rfl := length_eq_zero_iff.mp hzero
        refine ⟨l, todo', rfl, ?_⟩
        rwa [nil_append, joinedBytes_singleton] at hlarge
      · exact hover hlarge (fun hnil => hzero (by rw [hnil]; rfl))
    have hend : (if todo' = [] then none else some ((lead kept).length + l.length)).getD
        (lead kept ++ (l ++ trail todo')).length = (lead kept).length + l.length := by
      split_ifs with h
      · rw [h, trail, if_pos rfl, append_nil, Option.getD_none, length_append]
      · rfl
    rw [unlines_eq_lead]
    simp only [headLoop, HeadScan.after, indexOfNL_lead kept hl, hend, slice_mid,
      Nat.add_sub_cancel_left]
    obtain ⟨remaining, hremaining⟩ : ∃ remaining : Int,
        (maxBytes : Int) - joinedBytes kept - separatorBytes kept.length = remaining := ⟨_, rfl⟩
    rw [hremaining]
    by_cases hroom : remaining < 0
    · rw [if_pos hroom]
      refine hover (by omega) ?_
      rintro rfl
      simp [joinedBytes, separatorBytes] at hremaining
      omega
    rw [if_neg hroom]
    by_cases hunits : remaining < (l.length : Int)
    · rw [if_pos hunits]
      exact hfull (by omega)
    rw [if_neg hunits]
    by_cases hline : remaining < (byteLength l : Int)
    · rw [if_pos hline]
      exact hfull (by omega)
    rw [if_neg hline]
    have hfits : joinedBytes (kept ++ [l]) ≤ maxBytes := by omega
    have hkept : kept ++ l :: todo' = kept ++ [l] ++ todo' := by
      rw [append_assoc, singleton_append]
    have hafter : HeadScan.after (kept ++ [l]) by_ =
        { includedLines := kept.length + 1
          bytesUsed := joinedBytes kept + (separatorBytes kept.length + byteLength l)
          cutIndex := (lead kept).length + l.length
          cursor := (lead kept).length + l.length + 1
          truncatedBy := by_ } := by
      rw [HeadScan.after, hnext, unlines_concat, lead_append_singleton]
      simp only [length_append, length_singleton, Nat.add_assoc]
    have hlen : (kept ++ [l]).length = kept.length + 1 := by simp
    by_cases hlast : todo' = []
    · -- that was the last line
      rw [if_pos hlast, hkept]
      refine ⟨kept ++ [l], by simp, isLongestHead_of_stop (by omega) hfits (.inr (.inl hlast)),
        hlen.symm, hnext.symm, ?_⟩
      rw [unlines_concat, length_append]
    · rw [if_neg hlast, ← unlines_eq_lead, hkept]
      have hnext := ih (hkept ▸ hno : ∀ l' ∈ kept ++ [l] ++ todo', LF ∉ l') hlast (by omega)
        (.inl (by simp)) hfits
      rw [hafter] at hnext
      exact hnext

/-! ## The loop from the tail -/

theorem lastIndexOfNL_eq_some {at_ pos : Nat} (hle : at_ ≤ pos) (hat : content[at_]? = some LF)
    (hno : ∀ i, at_ < i → i ≤ pos → content[i]? ≠ some LF) :
    lastIndexOfNL content pos = some at_ := by
  induction pos with
  | zero =>
    obtain rfl := Nat.le_zero.mp hle
    rw [lastIndexOfNL, if_pos hat]
  | succ pos ih =>
    rw [lastIndexOfNL]
    rcases Nat.lt_or_eq_of_le hle with hlt | rfl
    · rw [if_neg (hno (pos + 1) hlt (Nat.le_refl _))]
      exact ih (Nat.le_of_lt_succ hlt) (fun i hi hipos => hno i hi (Nat.le_succ_of_le hipos))
    · rw [if_pos hat]

theorem lastIndexOfNL_eq_none {pos : Nat} (hno : ∀ i ≤ pos, content[i]? ≠ some LF) :
    lastIndexOfNL content pos = none := by
  induction pos with
  | zero => rw [lastIndexOfNL, if_neg (hno 0 (Nat.le_refl 0))]
  | succ pos ih =>
    rw [lastIndexOfNL, if_neg (hno _ (Nat.le_refl _))]
    exact ih (fun i hi => hno i (Nat.le_succ_of_le hi))

theorem getElem?_mid_ne (hl : LF ∉ l) (front back : JsString) {i : Nat} (hfront : front.length ≤ i)
    (hback : i < front.length + l.length) : (front ++ (l ++ back))[i]? ≠ some LF := by
  rw [getElem?_append_right hfront, getElem?_append_left (by omega)]
  exact fun hat => hl (mem_of_getElem? hat)

theorem length_lead {ls : List JsString} (h : ls ≠ []) :
    (lead ls).length = (unlines ls).length + 1 := by
  rw [lead, if_neg h, length_append, length_singleton]

/-- The line feed before a line is the last one up to its end.  A line with no other before
it must have a unit, or be the whole text, for there to be none. -/
theorem lastIndexOfNL_lead (hl : LF ∉ l) (rest : List JsString) (h : ls = [] → l = [] → rest = []) :
    lastIndexOfNL (lead ls ++ (l ++ trail rest)) ((lead ls).length + l.length - 1) =
      if ls = [] then none else some (unlines ls).length := by
  split_ifs with hls
  · subst hls
    apply lastIndexOfNL_eq_none
    intro i hi
    by_cases hnil : l = []
    · rw [hnil, h rfl hnil]
      simp [lead, trail]
    · have hpos := length_pos_iff.mpr hnil
      apply getElem?_mid_ne hl
      · exact Nat.zero_le i
      · simp only [lead, if_true, length_nil] at hi ⊢
        omega
  · have hlen := length_lead hls
    apply lastIndexOfNL_eq_some (by omega)
    · rw [lead, if_neg hls, append_assoc, getElem?_append_right (Nat.le_refl _), Nat.sub_self]
      rfl
    · intro i hi hipos
      exact getElem?_mid_ne hl _ _ (by omega) (by omega)

theorem joinedBytes_cons (l : JsString) (kept : List JsString) : joinedBytes (l :: kept) =
      joinedBytes kept + (separatorBytes kept.length + byteLength l) := by
  rcases kept with _ | ⟨k, kept⟩
  · simp [joinedBytes, separatorBytes]
  · simp only [joinedBytes, separatorBytes, map_cons, sum_cons, length_cons, Nat.succ_pos, if_true]
    omega

/-- The end of a line that is too long, cut out of a window of it. -/
theorem truncateTailBytes_window {s : JsString} {n : Nat} (h : n < s.length) :
    truncateTailBytes (s.drop (s.length - n)) n =
      ⟨ofChars (fitTail n (codePoints s)), byteSize (fitTail n (codePoints s))⟩ := by
  have hwindow : (s.drop (s.length - n)).length = n := by
    rw [length_drop]
    omega
  have hfit := fitTail_drop s n
  rw [truncateTailBytes_eq]
  split_ifs with hfits
  · -- a window that fits is ASCII
    have hascii : toWellFormed (s.drop (s.length - n)) = s.drop (s.length - n) := by
      apply toWellFormed_of_byteSize_le
      rwa [← byteLength_eq, hwindow]
    rw [byteLength_eq] at hfits ⊢
    rw [fitTail_of_le hfits] at hfit
    rw [← hfit]
    exact congrArg (ByteTruncationResult.mk · _) hascii.symm
  · rw [hfit]

/-- What a finished loop has found: an end of the last line, which alone is too long, or
the longest run of last lines. -/
def TailOutcome (maxLines maxBytes : Nat) (all : List JsString) :
    ByteTruncationResult ⊕ TailScan → Prop
  | .inl tail => ∃ rest l, all = rest ++ [l] ∧ maxBytes < byteLength l ∧
      tail = ⟨ofChars (fitTail maxBytes (codePoints l)), byteSize (fitTail maxBytes (codePoints l))⟩
  | .inr st => ∃ kept, kept ≠ [] ∧ IsLongestEnd maxLines maxBytes all kept ∧
      st.includedLines = kept.length ∧ st.bytesUsed = joinedBytes kept ∧
      (unlines all).drop st.startIndex = unlines kept

/-- The state of the loop when it has kept the lines after `todo`. -/
def TailScan.after (todo kept : List JsString) (truncatedBy : TruncatedBy) : TailScan where
  includedLines := kept.length
  bytesUsed := joinedBytes kept
  startIndex := if kept = [] then (unlines todo).length else (lead todo).length
  stop := (unlines todo).length
  truncatedBy

theorem drop_startIndex (hkept : kept ≠ []) (by_ : TruncatedBy) :
    (unlines (todo ++ kept)).drop (TailScan.after todo kept by_).startIndex = unlines kept := by
  obtain ⟨k, kept', rfl⟩ := exists_cons_of_ne_nil hkept
  have hwhole : unlines (k :: kept') = k ++ trail kept' := by
    have := unlines_eq_lead [] k kept'
    rwa [nil_append, lead, if_pos rfl, nil_append] at this
  rw [TailScan.after, if_neg hkept, unlines_eq_lead, drop_left, hwhole]

/-- **The loop from the tail.**  It keeps the lines after the cursor, and they fit; all
lines together do not. -/
theorem tailLoop_outcome (hno : ∀ l ∈ todo ++ kept, LF ∉ l) (htodo : todo ≠ [])
    (hfuel : kept.length + fuel = maxLines) (hstart : kept ≠ [] ∨ 0 < fuel)
    (hbytes : joinedBytes kept ≤ maxBytes)
    (hbig : ¬ ((todo ++ kept).length ≤ maxLines ∧ joinedBytes (todo ++ kept) ≤ maxBytes))
    (by_ : TruncatedBy) : TailOutcome maxLines maxBytes (todo ++ kept)
      (tailLoop (unlines (todo ++ kept)) maxBytes fuel (.after todo kept by_)) := by
  induction fuel generalizing todo kept with
  | zero =>
    have hne : kept ≠ [] := hstart.resolve_right (lt_irrefl 0)
    exact ⟨kept, hne, isLongestEnd_of_stop (by omega) hbytes (.inl (by omega)), rfl, rfl,
      drop_startIndex hne by_⟩
  | succ fuel ih =>
    obtain ⟨todo', l, rfl⟩ : ∃ todo' l, todo = todo' ++ [l] :=
      ⟨_, _, (dropLast_append_getLast htodo).symm⟩
    have hl : LF ∉ l := hno l (by simp)
    have hnext := joinedBytes_cons l kept
    have hsize := length_le_byteSize l
    rw [← byteLength_eq] at hsize
    have hall : todo' ++ [l] ++ kept = todo' ++ l :: kept := by
      rw [append_assoc, singleton_append]
    have hstop : (unlines (todo' ++ [l])).length = (lead todo').length + l.length := by
      rw [unlines_concat, length_append]
    -- where the next line does not fit, the loop ends here
    have hover : maxBytes < joinedBytes (l :: kept) → kept ≠ [] →
        TailOutcome maxLines maxBytes (todo' ++ [l] ++ kept)
          (.inr (.after (todo' ++ [l]) kept .bytes)) :=
      fun hlarge hne => ⟨kept, hne, isLongestEnd_of_stop (by omega) hbytes
        (.inr (.inr ⟨l, todo', rfl, hlarge⟩)), rfl, rfl, drop_startIndex hne .bytes⟩
    have hfull : ∀ tail, maxBytes < joinedBytes (l :: kept) →
        (kept = [] → tail = ⟨ofChars (fitTail maxBytes (codePoints l)),
          byteSize (fitTail maxBytes (codePoints l))⟩) →
        TailOutcome maxLines maxBytes (todo' ++ [l] ++ kept)
          (if kept.length = 0 then .inl tail else .inr (.after (todo' ++ [l]) kept .bytes)) := by
      intro tail hlarge htail
      split_ifs with hzero
      · obtain rfl := length_eq_zero_iff.mp hzero
        rw [joinedBytes_singleton] at hlarge
        exact ⟨todo', l, append_nil _, hlarge, htail rfl⟩
      · exact hover hlarge (fun hnil => hzero (by rw [hnil]; rfl))
    obtain ⟨remaining, hremaining⟩ : ∃ remaining : Int,
        (maxBytes : Int) - joinedBytes kept - separatorBytes kept.length = remaining := ⟨_, rfl⟩
    simp only [tailLoop, TailScan.after, hremaining]
    by_cases hroom : remaining < 0
    · rw [if_pos hroom]
      refine hover (by omega) ?_
      rintro rfl
      simp [joinedBytes, separatorBytes] at hremaining
      omega
    rw [if_neg hroom]
    -- with a byte left for it, an empty first line would have fitted
    have hclamp : todo' = [] → l = [] → kept = [] := by
      rintro rfl rfl
      by_contra hne
      apply hbig
      rw [hall, nil_append, hnext]
      have : byteLength [] = 0 := rfl
      rw [length_cons]
      exact ⟨by omega, by omega⟩
    have hnl : lastIndexOfNL (unlines (todo' ++ [l] ++ kept))
        ((unlines (todo' ++ [l])).length - 1) =
        if todo' = [] then none else some (unlines todo').length := by
      rw [hall, unlines_eq_lead, hstop]
      exact lastIndexOfNL_lead todo' hl kept hclamp
    have hlineStart : (((if todo' = [] then none else some (unlines todo').length).map
        (· + 1)).getD 0 : Nat) = (lead todo').length := by
      split_ifs with h
      · rw [h]
        rfl
      · exact (length_lead h).symm
    have hslice : slice (unlines (todo' ++ [l] ++ kept)) (lead todo').length
        (unlines (todo' ++ [l])).length = l := by
      rw [hall, unlines_eq_lead, hstop, slice_mid]
    have hunitsEq : (((unlines (todo' ++ [l])).length : Int) - ((lead todo').length : Int)) =
        l.length := by
      omega
    rw [hnl, hlineStart, hslice, hunitsEq]
    have hwhole : kept = [] → remaining = maxBytes := by
      rintro rfl
      simpa [joinedBytes, separatorBytes] using hremaining.symm
    by_cases hunits : remaining < (l.length : Int)
    · -- the window holds the end of the line
      rw [if_pos hunits]
      refine hfull _ (by omega) fun hnil => ?_
      have hremainingAll := hwhole hnil
      subst hnil
      have hwindow : max (lead todo').length ((unlines (todo' ++ [l])).length - maxBytes) =
          (lead todo').length + (l.length - maxBytes) := by
        omega
      have hcut : slice (unlines (todo' ++ [l] ++ []))
          ((lead todo').length + (l.length - maxBytes)) (unlines (todo' ++ [l])).length =
          l.drop (l.length - maxBytes) := by
        rw [append_nil, slice, take_length, unlines_concat, ← drop_drop, drop_left]
      rw [hwindow, hcut, truncateTailBytes_window (by omega)]
    rw [if_neg hunits]
    by_cases hline : remaining < (byteLength l : Int)
    · rw [if_pos hline]
      refine hfull _ (by omega) fun hnil => ?_
      have hremainingAll := hwhole hnil
      rw [truncateTailBytes_eq, if_neg (by omega)]
    rw [if_neg hline]
    have hfits : joinedBytes (l :: kept) ≤ maxBytes := by omega
    have hlen : (l :: kept).length = kept.length + 1 := rfl
    have hafter : TailScan.after todo' (l :: kept) by_ =
        { includedLines := kept.length + 1
          bytesUsed := joinedBytes kept + (separatorBytes kept.length + byteLength l)
          startIndex := (lead todo').length
          stop := (unlines todo').length
          truncatedBy := by_ } := by
      rw [TailScan.after, hnext, if_neg (cons_ne_nil _ _), hlen]
    by_cases hlast : todo' = []
    · -- that was the first line
      subst hlast
      rw [if_pos rfl, hall]
      refine ⟨l :: kept, cons_ne_nil _ _,
        isLongestEnd_of_stop (by omega) hfits (.inr (.inl rfl)), rfl, hnext.symm, ?_⟩
      rw [← drop_startIndex (cons_ne_nil l kept) by_, hafter]
    · rw [if_neg hlast, hall]
      have hnext := ih (hall ▸ hno : ∀ l' ∈ todo' ++ l :: kept, LF ∉ l') hlast (by omega)
        (.inl (cons_ne_nil _ _)) hfits (hall ▸ hbig)
      rw [hafter] at hnext
      exact hnext

/-! ## The results -/

theorem countNewlines_unlines {ls : List JsString} (hne : ls ≠ []) (hno : ∀ l ∈ ls, LF ∉ l) :
    countNewlines (unlines ls) + 1 = ls.length := by
  induction ls with
  | nil => exact absurd rfl hne
  | cons l ls ih =>
    have hl : l.count LF = 0 := count_eq_zero.mpr (hno l mem_cons_self)
    by_cases hls : ls = []
    · simp [hls, countNewlines, hl]
    · have hrest := ih hls (fun l' hl' => hno l' (mem_cons_of_mem _ hl'))
      rw [unlines_cons_of_ne_nil l hls, countNewlines, count_append, count_cons_self, hl,
        length_cons, ← hrest, countNewlines]
      omega

theorem countNewlines_add_one (content : JsString) :
    countNewlines content + 1 = (lines content).length := by
  have h := countNewlines_unlines (lines_ne_nil content) (fun _ hl => LF_not_mem_of_mem_lines hl)
  rwa [unlines_lines] at h

theorem joinedBytes_lines (content : JsString) :
    joinedBytes (lines content) = byteLength content := by
  rw [← byteLength_unlines, unlines_lines]

def firstLine (content : JsString) : JsString := (lines content).head?.getD []

def lastLine (content : JsString) : JsString := (lines content).getLast?.getD []

theorem byteLength_firstLine_le (hkept : kept <+: lines content) (hne : kept ≠ []) :
    byteLength (firstLine content) ≤ joinedBytes kept := by
  obtain ⟨l, kept, rfl⟩ := exists_cons_of_ne_nil hne
  obtain ⟨rest, hrest⟩ := hkept
  have hfirst : firstLine content = l := by
    rw [firstLine, ← hrest]
    rfl
  rw [hfirst, joinedBytes_cons]
  omega

theorem byteLength_lastLine_le (hkept : kept <:+ lines content) (hne : kept ≠ []) :
    byteLength (lastLine content) ≤ joinedBytes kept := by
  obtain ⟨kept', l, rfl⟩ : ∃ kept' l, kept = kept' ++ [l] :=
    ⟨_, _, (dropLast_append_getLast hne).symm⟩
  obtain ⟨rest, hrest⟩ := hkept
  have hlast : lastLine content = l := by
    rw [lastLine, ← hrest, ← append_assoc, getLast?_concat]
    rfl
  rw [hlast, joinedBytes_concat]
  omega

/-- What `truncateHead` gives back: the longest run of first lines within both budgets,
with its counts if anything was cut off; nothing, and a flag, exactly when the first line
alone has too many bytes. -/
structure KeepsHeadLines (maxLines maxBytes : Nat) (content : JsString) (r : TruncationResult) :
    Prop where
  kept : ∃ kept, IsLongestHead maxLines maxBytes (lines content) kept ∧
    r.content = unlines kept ∧
    (r.truncated = some true →
      r.outputLines = some kept.length ∧ r.outputBytes = some (byteLength r.content)) ∧
    (r.truncated ≠ some true → kept = lines content)
  exceeds : r.firstLineExceedsLimit = some true ↔ maxBytes < byteLength (firstLine content)
  empty : r.firstLineExceedsLimit = some true → r.content = []

/-- What `truncateTail` gives back: the longest run of last lines within both budgets,
with its counts if anything was cut off; the longest end of the last line, and a flag,
exactly when that line alone has too many bytes. -/
structure KeepsTailLines (maxLines maxBytes : Nat) (content : JsString) (r : TruncationResult) :
    Prop where
  kept : byteLength (lastLine content) ≤ maxBytes →
    ∃ kept, IsLongestEnd maxLines maxBytes (lines content) kept ∧ r.content = unlines kept ∧
      (r.truncated = some true →
        r.outputLines = some kept.length ∧ r.outputBytes = some (byteLength r.content)) ∧
      (r.truncated ≠ some true → kept = lines content)
  exceeds : r.lastLinePartial = some true ↔ maxBytes < byteLength (lastLine content)
  partOfLine : r.lastLinePartial = some true →
    IsLongestTail maxBytes (toWellFormed (lastLine content)) r.content ∧
      r.outputLines = some 1 ∧ r.outputBytes = some (byteLength r.content)

section
variable (hlines : countNewlines content + 1 ≤ maxLines) (hbytes : byteLength content ≤ maxBytes)
include hlines hbytes

theorem isLongestHead_all : IsLongestHead maxLines maxBytes (lines content) (lines content) := by
  rw [countNewlines_add_one] at hlines
  refine ⟨prefix_rfl, hlines, by rwa [unlines_lines], ?_⟩
  exact fun more hmore _ _ => hmore.length_le

theorem isLongestEnd_all : IsLongestEnd maxLines maxBytes (lines content) (lines content) := by
  rw [countNewlines_add_one] at hlines
  refine ⟨suffix_rfl, hlines, by rwa [unlines_lines], ?_⟩
  exact fun more hmore _ _ => hmore.length_le

end

theorem truncateHead_keepsHeadLines (content : JsString) (options : TruncationOptions)
    (hmaxLines : options.maxLines.getD defaultMaxLines = maxLines)
    (hmaxBytes : options.maxBytes.getD defaultMaxBytes = maxBytes) (hpos : 1 ≤ maxLines) :
    KeepsHeadLines maxLines maxBytes content (truncateHead content options) := by
  have hno : ∀ l ∈ [] ++ lines content, LF ∉ l := fun l hl => LF_not_mem_of_mem_lines hl
  have hnone : joinedBytes [] ≤ maxBytes := Nat.zero_le _
  have hloop := headLoop_outcome hno (lines_ne_nil content) (Nat.zero_add maxLines) (.inr hpos)
    hnone .lines
  rw [nil_append, unlines_lines] at hloop
  simp only [truncateHead, hmaxLines, hmaxBytes]
  split_ifs with hfits
  · have hfirst := byteLength_firstLine_le prefix_rfl (lines_ne_nil content)
    rw [joinedBytes_lines] at hfirst
    refine ⟨⟨lines content, isLongestHead_all hfits.1 hfits.2, (unlines_lines content).symm,
      fun h => (nomatch h), fun _ => rfl⟩, ⟨fun h => (nomatch h), fun h => ?_⟩,
      fun h => (nomatch h)⟩
    omega
  · change HeadOutcome _ _ _ (headLoop content maxBytes maxLines ⟨0, 0, 0, 0, .lines⟩) at hloop
    generalize headLoop content maxBytes maxLines ⟨0, 0, 0, 0, .lines⟩ = outcome at hloop ⊢
    rcases outcome with _ | st
    · obtain ⟨l, rest, hall, hlarge⟩ := hloop
      have hfirst : firstLine content = l := by
        rw [firstLine, hall]
        rfl
      refine ⟨⟨[], ⟨List.nil_prefix, Nat.zero_le _, Nat.zero_le _, ?_⟩, rfl, fun _ => ⟨rfl, rfl⟩,
        fun h => absurd rfl h⟩, ⟨fun _ => hfirst ▸ hlarge, fun _ => rfl⟩, fun _ => rfl⟩
      intro more hmore _ hbytes
      by_contra hne
      have hmoreNe : more ≠ [] := fun hnil => hne (by rw [hnil])
      have hle := byteLength_firstLine_le hmore hmoreNe
      rw [byteLength_unlines] at hbytes
      rw [hfirst] at hle
      omega
    · obtain ⟨kept, hne, hlongest, hlines, hbytes, hcut⟩ := hloop
      have hfirst := byteLength_firstLine_le hlongest.run hne
      have hsmall := hlongest.bytes
      rw [byteLength_unlines] at hsmall
      have hcontent : content.take st.cutIndex = unlines kept := by
        obtain ⟨rest, hrest⟩ := hlongest.run
        rw [hcut, ← unlines_lines content, ← hrest]
        by_cases hnil : rest = []
        · rw [hnil, append_nil, take_length]
        · rw [unlines_append hne hnil, take_left]
      refine ⟨⟨kept, hlongest, hcontent, fun _ => ⟨congrArg some hlines, ?_⟩,
        fun h => absurd rfl h⟩, ⟨fun h => (nomatch h), fun h => ?_⟩, fun h => (nomatch h)⟩
      · simp only [hcontent, byteLength_unlines, hbytes]
      · omega

theorem truncateTail_keepsTailLines (content : JsString) (options : TruncationOptions)
    (hmaxLines : options.maxLines.getD defaultMaxLines = maxLines)
    (hmaxBytes : options.maxBytes.getD defaultMaxBytes = maxBytes) (hpos : 1 ≤ maxLines) :
    KeepsTailLines maxLines maxBytes content (truncateTail content options) := by
  simp only [truncateTail, hmaxLines, hmaxBytes]
  split_ifs with hfits
  · have hlast := byteLength_lastLine_le suffix_rfl (lines_ne_nil content)
    rw [joinedBytes_lines] at hlast
    refine ⟨fun _ => ⟨lines content, isLongestEnd_all hfits.1 hfits.2, (unlines_lines content).symm,
      fun h => (nomatch h), fun _ => rfl⟩, ⟨fun h => (nomatch h), fun h => ?_⟩,
      fun h => (nomatch h)⟩
    omega
  · have hbig : ¬ ((lines content ++ []).length ≤ maxLines ∧
        joinedBytes (lines content ++ []) ≤ maxBytes) := by
      rwa [append_nil, ← countNewlines_add_one, joinedBytes_lines]
    have hno : ∀ l ∈ lines content ++ [], LF ∉ l := fun l hl =>
      LF_not_mem_of_mem_lines (by simpa using hl)
    have hloop := tailLoop_outcome hno (lines_ne_nil content) (Nat.zero_add maxLines) (.inr hpos)
      (Nat.zero_le _) hbig .lines
    rw [append_nil, unlines_lines] at hloop
    have hstate : TailScan.after (lines content) [] .lines =
        ⟨0, 0, content.length, content.length, .lines⟩ := by
      rw [TailScan.after, unlines_lines, if_pos rfl]
      rfl
    rw [hstate] at hloop
    generalize tailLoop content maxBytes maxLines ⟨0, 0, content.length, content.length, .lines⟩ =
      outcome at hloop ⊢
    rcases outcome with tail | st
    · obtain ⟨rest, l, hall, hlarge, rfl⟩ := hloop
      have hlast : lastLine content = l := by
        rw [lastLine, hall, getLast?_concat]
        rfl
      refine ⟨fun h => ?_, ⟨fun _ => hlast ▸ hlarge, fun _ => rfl⟩, fun _ => ⟨?_, rfl, ?_⟩⟩
      · rw [hlast] at h
        omega
      · rw [hlast]
        exact isLongestTail_fitTail maxBytes (codePoints l)
      · exact congrArg some (OutputSink.byteLength_ofChars _).symm
    · obtain ⟨kept, hne, hlongest, hlines, hbytes, hstart⟩ := hloop
      have hlast := byteLength_lastLine_le hlongest.run hne
      have hsmall := hlongest.bytes
      rw [byteLength_unlines] at hsmall
      rw [unlines_lines] at hstart
      refine ⟨fun _ => ⟨kept, hlongest, hstart, fun _ => ⟨congrArg some hlines, ?_⟩,
        fun h => absurd rfl h⟩, ⟨fun h => (nomatch h), fun h => ?_⟩, fun h => (nomatch h)⟩
      · simp only [hstart, byteLength_unlines, hbytes]
      · omega

/-- **Truncation keeps the longest run of whole lines.**  For every content and budgets
of at least one line, and of bytes. -/
theorem truncate_keeps (content : JsString) (maxBytes : Nat) {maxLines : Nat}
    (hlines : 1 ≤ maxLines) : KeepsHeadLines maxLines maxBytes content
        (truncateHead content { maxLines := some maxLines, maxBytes := some maxBytes }) ∧
      KeepsTailLines maxLines maxBytes content
        (truncateTail content { maxLines := some maxLines, maxBytes := some maxBytes }) :=
  ⟨truncateHead_keepsHeadLines content _ rfl rfl hlines,
    truncateTail_keepsTailLines content _ rfl rfl hlines⟩

/-- Three bytes of a text that begins with a line feed: of its three lines the last two. -/
theorem truncate_keeps_leading_newline : KeepsTailLines 3 3 (js "\na\nb")
        (truncateTail (js "\na\nb") { maxLines := some 3, maxBytes := some 3 }) ∧
      (truncateTail (js "\na\nb") { maxLines := some 3, maxBytes := some 3 }).content = js "a\nb" :=
  ⟨(truncate_keeps (js "\na\nb") 3 (by decide : 1 ≤ 3)).2, by decide⟩

/-- A result that was not cut has no counts, and the end of a line that is too long comes
back from its bytes: an unpaired surrogate in it is U+FFFD then, and the result no end of
the line. -/
theorem truncate_without_counts :
    (truncateHead (js "a") { maxLines := some 1, maxBytes := some 1 }).outputLines = none ∧
      (truncateHead (js "a") { maxLines := some 1, maxBytes := some 1 }).outputBytes = none ∧
      (truncateTail (js "ab" ++ [0xd800]) { maxLines := some 1, maxBytes := some 3 }).content =
        [0xfffd] ∧
      ¬ [0xfffd] <:+ js "ab" ++ [0xd800] := by
  decide

end GajaeCode
