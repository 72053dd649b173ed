import GajaeCode.ToolOutputStaleness
import GajaeCode.DiffParser

/-! # Pruning of tool outputs

`packages/agent/src/compaction/pruning.ts`, `pruneToolOutputs`, with the token estimates of
`packages/agent/src/compaction/compaction.ts`.  From the newest entry to the oldest, the
outputs that lie behind a window of recent ones or are stale are replaced by a notice, if
that saves tokens and all of it together saves enough.

A pruned output has fewer tokens than before, so the window reaches no less far back the
next time, and whatever kept an entry from being pruned still does.  Estimates are
remembered under a fingerprint of the entry in the source; they are computed here.
-/
namespace GajaeCode
open JsString JsValue List

namespace Pruning
variable {N : Type} [JsNumber N]
variable {message : ToolResultMessage N} {entry : SessionEntry N}

/-- Scripts of which every character counts as a token. -/
def denseRanges : List (CodeUnit × CodeUnit) :=
  [(0x1100, 0x11ff), (0x3000, 0x303f), (0x3040, 0x30ff), (0x3130, 0x318f), (0x3400, 0x4dbf),
    (0x4e00, 0x9fff), (0xac00, 0xd7af), (0xf900, 0xfaff), (0xff00, 0xffef)]

/-- The weight of a code unit, in quarters of a token. -/
def unitQuarters (u : CodeUnit) : Nat :=
  if denseRanges.any (fun (first, last) => first ≤ u && u ≤ last) then 4
  else if 0xd800 ≤ u ∧ u ≤ 0xdfff then 2
  else 1

/-- `estimateTextTokensHeuristic`: quarters are rounded up. -/
def estimateTextTokensHeuristic (fragments : List JsString) : Nat :=
  ((fragments.map fun fragment => (fragment.map unitQuarters).sum).sum + 3) / 4

def imageTokenEstimate : Nat := 1200

def contentTexts : Content → List JsString
  | .string text => [text]
  | .blocks blocks => blocks.filterMap fun block => match block with
    | .text (u :: rest) => some (u :: rest)
    | _ => none

def imageTokens : Content → Nat
  | .string _ => 0
  | .blocks blocks => (blocks.map fun block => match block with
    | .image => imageTokenEstimate
    | _ => 0).sum

def collectMessageFragments : AgentMessage N → List JsString × Nat
  | .bashExecution command output => (command.toList ++ output.toList, 0)
  | .user content | .custom content => (contentTexts content, 0)
  | .assistant content => (content.flatMap fun block => match block with
    | .text text => [text]
    | .thinking thinking => [thinking]
    | .toolCall call => [call.name, jsonText (.object call.arguments)]
    | .other => [], 0)
  | .hookMessage content => (contentTexts content, imageTokens content)
  | .toolResult message => (contentTexts message.content, imageTokens message.content)
  | .branchSummary summary | .compactionSummary summary => ([summary], 0)
  | .other => ([], 0)

def getMessageFromEntry : SessionEntry N → Option (AgentMessage N)
  | .message message => some message
  | .customMessage content => some (.custom content)
  | .branchSummary summary => some (.branchSummary summary)
  | .other => none

def estimateEntryTokens (entry : SessionEntry N) : Nat :=
  match getMessageFromEntry entry with
  | none => 0
  | some message =>
    estimateTextTokensHeuristic (collectMessageFragments message).1 +
      (collectMessageFragments message).2

def totalTokens (entries : List (SessionEntry N)) : Nat := (entries.map estimateEntryTokens).sum

def createGenericPrunedNotice (tokens : Nat) : JsString :=
  js "[Output truncated - " ++ ofNat tokens ++ js " tokens]"

def firstTextContent (content : Content) : JsString :=
  match content with
  | .string text => text
  | .blocks blocks => (blocks.findSome? fun block => match block with
    | .text text => some text
    | _ => none).getD []

/-- `word` stands somewhere in the text, in whatever case. -/
def mentions (word text : JsString) : Bool :=
  (PatchEdit.toLowerAscii text).tails.any (word.isPrefixOf ·)

def firstErrorLine (text : JsString) : Option JsString :=
  ((splitLines text).find? fun line =>
    [js "error", js "failed", js "exception", js "panic"].any (mentions · line)).map trim

def firstNonEmptyLine (text : JsString) : Option JsString :=
  ((splitLines text).find? fun line => 0 < (trim line).length).map trim

def lastNonEmptyLine (text : JsString) : Option JsString :=
  (((splitLines (trim text)).filter (· ≠ [])).getLast?).map trim

def truncateField (value : JsString) (maxLength : Int) : JsString :=
  if (value.length : Int) ≤ maxLength then value
  else if maxLength ≤ 1 then [0x2026]
  else value.take (maxLength - 1).toNat ++ [0x2026]

/-- `(\d+)\s+word`, in whatever case: the digits. -/
def countBefore (word : JsString) : JsString → Option JsString
  | [] => none
  | u :: rest =>
    let digits := (u :: rest).takeWhile isDigit
    let after := (u :: rest).dropWhile isDigit
    if digits ≠ [] ∧ after.head?.any isWhitespace = true ∧
        word.isPrefixOf (PatchEdit.toLowerAscii (after.dropWhile isWhitespace)) = true then
      some digits
    else countBefore word rest

/-- `word["']?:\s*(\d+)`, in whatever case: the digits. -/
def countAfter (word : JsString) : JsString → Option JsString
  | [] => none
  | u :: rest =>
    let text := (u :: rest).drop word.length
    let text := if text.head? = some 0x22 ∨ text.head? = some 0x27 then text.tail else text
    let digits := (text.tail.dropWhile isWhitespace).takeWhile isDigit
    if word.isPrefixOf (PatchEdit.toLowerAscii (u :: rest)) = true ∧ text.head? = some 0x3a ∧
        digits ≠ [] then
      some digits
    else countAfter word rest

/-- `parts.join("; ")`, without the parts that are missing. -/
def joinParts (parts : List (Option JsString)) : JsString :=
  (js "; ").intercalate (parts.filterMap id)

/-- A labelled part, where its value is there and not empty. -/
def part (label : JsString) : Option JsString → Option JsString
  | none | some [] => none
  | some value => some (label ++ value)

variable (sanitizeText : JsString → JsString)

def bashDigest (message : ToolResultMessage N) (text : JsString) : JsString :=
  let exitCode :=
    match prop message.details (js "exitCode") with
    | .number n => JsNumber.text n
    | _ => if message.isError then js "1" else js "0"
  let tail := ((splitLines (trim text)).filter (· ≠ [])).getLast?
  joinParts [some (js "exit=" ++ exitCode), part (js "tail=") tail,
    part (js "error=") (firstErrorLine text)]

def searchDigest (text : JsString) : JsString :=
  let matchCount := (countBefore (js "matche") text).or (countAfter (js "totalmatches") text)
  let files := (countBefore (js "file") text).or (countAfter (js "fileswithmatches") text)
  let digest := joinParts [part (js "matches=") matchCount, part (js "files=") files,
    part (js "error=") (firstErrorLine text)]
  if digest = [] then js "search digest unavailable" else digest

/-- The digest of another tool that failed. -/
def errorDigest (text : JsString) : Option JsString :=
  if (trim text).length = 0 then some (js "error=tool result failed without text")
  else
    (part (js "error=") (firstErrorLine text)).or
      (part (js "summary=") ((firstNonEmptyLine text).or (lastNonEmptyLine text)))

def resultDigest (message : ToolResultMessage N) : Option JsString :=
  let toolName := PatchEdit.toLowerAscii message.toolName
  let text := sanitizeText (firstTextContent message.content)
  if toolName = js "bash" then some (bashDigest message text)
  else if toolName = js "search" ∨ toolName = js "grep" then some (searchDigest text)
  else if message.isError = false then none
  else errorDigest text

def errorDigestNoticeMinChars : Int := 240

def createPrunedNotice (tokens : Nat) (message : ToolResultMessage N) : JsString :=
  let generic := createGenericPrunedNotice tokens
  match resultDigest sanitizeText message with
  | none | some [] => generic
  | some digest =>
    let genericTokens := (generic.length + 3) / 4
    let maxTokens := max genericTokens (genericTokens * 5 / 4)
    let noticePrefix := js "[Output truncated - " ++ ofNat tokens ++ js " tokens; "
    let suffix := js "]"
    let digestChars : Int := maxTokens * 4 - noticePrefix.length - suffix.length
    let maxChars :=
      if message.isError then max errorDigestNoticeMinChars digestChars else max 0 digestChars
    noticePrefix ++ truncateField digest maxChars ++ suffix

/-! ## Candidates -/

/-- A number of the configuration. -/
inductive Limit where
  | finite (value : Rat)
  | infinite
  | negInfinite
  | nan
  deriving DecidableEq

/-- `n < limit`. -/
def Limit.above (limit : Limit) (n : Int) : Bool :=
  match limit with
  | .finite value => (n : Rat) < value
  | .infinite => true
  | .negInfinite | .nan => false

/-- `Math.min(limit, value)`. -/
def Limit.min (limit : Limit) (value : Rat) : Limit :=
  match limit with
  | .finite v => .finite (Min.min v value)
  | .infinite => .finite value
  | .negInfinite => .negInfinite
  | .nan => .nan

structure PruneConfig where
  protectTokens : Limit
  minimumSavings : Limit
  protectedTools : List JsString
  staleOverridableTools : List JsString

def defaultPruneConfig : PruneConfig where
  protectTokens := .finite 40000
  minimumSavings := .finite 20000
  protectedTools := [js "skill", js "read"]
  staleOverridableTools := [js "read"]

/-- `ToolOutputPruneCandidate`, its entry by its index. -/
structure ToolOutputPruneCandidate where
  index : Nat
  tokens : Nat
  notice : JsString
  savings : Int

/-- What a tool result adds to the window. -/
def resultTokens (entry : SessionEntry N) : Nat :=
  match getToolResultMessage entry with
  | none => 0
  | some _ => estimateEntryTokens entry

/-- The candidate that an entry is, with so many tokens of results behind it. -/
def candidateAt (config : PruneConfig) (stale : List Nat) (i : Nat) (entry : SessionEntry N)
    (accumulatedTokens : Nat) : Option ToolOutputPruneCandidate :=
  match getToolResultMessage entry with
  | none => none
  | some message =>
    let tokens := estimateEntryTokens entry
    let isStale := decide (i ∈ stale)
    let isProtected := decide (message.toolName ∈ config.protectedTools) &&
      !(isStale && decide (message.toolName ∈ config.staleOverridableTools))
    let insideProtectWindow := config.protectTokens.above accumulatedTokens
    if message.prunedAt.isSome = true then none
    else if ((insideProtectWindow && !isStale) || isProtected) = true then none
    else
      let notice := createPrunedNotice sanitizeText tokens message
      let savings : Int := tokens - estimateTextTokensHeuristic [notice]
      let errorNoticeGrows := message.isError &&
        decide ((firstTextContent message.content).length < notice.length)
      if savings ≤ 0 ∨ errorNoticeGrows = true then none
      else some ⟨i, tokens, notice, savings⟩

/-- The loop of `collectToolOutputPruneCandidates` over the entries from an index on, the last
one first: the tokens of the results and the candidates. -/
def collectFrom (config : PruneConfig) (stale : List Nat) :
    Nat → List (SessionEntry N) → Nat × List ToolOutputPruneCandidate
  | _, [] => (0, [])
  | i, entry :: entries =>
    let (accumulatedTokens, candidates) := collectFrom config stale (i + 1) entries
    (accumulatedTokens + resultTokens entry,
      candidates ++
        (candidateAt sanitizeText config stale i entry accumulatedTokens).toList)

def collectToolOutputPruneCandidates (entries : List (SessionEntry N)) (config : PruneConfig) :
    List ToolOutputPruneCandidate × Int :=
  let candidates := (collectFrom sanitizeText config (buildStalenessIndex entries) 0 entries).2
  (candidates, (candidates.map ToolOutputPruneCandidate.savings).sum)

/-- `minimumSavings`, with `options.relaxedMinimum`. -/
def minimumSavings (config : PruneConfig) (relaxedMinimum : Option Limit) : Limit :=
  match relaxedMinimum with
  | some (.finite value) => config.minimumSavings.min (max 0 value)
  | _ => config.minimumSavings

/-- `PruneResult`, the pruned entries by their indices, and the entries after it. -/
structure PruneResult (N : Type) where
  prunedCount : Nat
  tokensSaved : Int
  prunedEntries : List Nat
  entries : List (SessionEntry N)

/-- An entry whose output is replaced by a notice. -/
def withNotice (notice : JsString) (prunedAt : Nat) : SessionEntry N → SessionEntry N
  | .message (.toolResult message) =>
    .message (.toolResult
      { message with content := .blocks [.text notice], prunedAt := some prunedAt })
  | entry => entry

/-- An entry, with its notice where it is a candidate. -/
def replaced (candidate : Option ToolOutputPruneCandidate) (prunedAt : Nat)
    (entry : SessionEntry N) : SessionEntry N :=
  match candidate with
  | some candidate => withNotice candidate.notice prunedAt entry
  | none => entry

/-- The candidates among the entries from an index on are replaced. -/
def replaceFrom (candidates : List ToolOutputPruneCandidate) (prunedAt : Nat) (i : Nat)
    (entries : List (SessionEntry N)) : List (SessionEntry N) :=
  (entries.zipIdx i).map fun pair =>
    replaced (candidates.find? fun candidate => candidate.index = pair.2) prunedAt pair.1

def pruneToolOutputs (entries : List (SessionEntry N)) (config : PruneConfig := defaultPruneConfig)
    (relaxedMinimum : Option Limit := none) (now : Nat) : PruneResult N :=
  let (candidates, tokensSaved) := collectToolOutputPruneCandidates sanitizeText entries config
  if (minimumSavings config relaxedMinimum).above tokensSaved = true ∨ candidates = [] then
    ⟨0, 0, [], entries⟩
  else
    ⟨candidates.length, tokensSaved, candidates.map ToolOutputPruneCandidate.index,
      replaceFrom candidates now 0 entries⟩

theorem createPrunedNotice_ne_nil (tokens : Nat) (message : ToolResultMessage N) :
    createPrunedNotice sanitizeText tokens message ≠ [] := by
  have hprefix : ∀ text : JsString, js "[Output truncated - " ++ text ≠ [] :=
    fun text h => absurd (append_eq_nil_iff.mp h).1 (by decide)
  simp only [createPrunedNotice]
  split
  · rw [createGenericPrunedNotice, append_assoc]
    exact hprefix _
  · rw [createGenericPrunedNotice, append_assoc]
    exact hprefix _
  · simp only [append_assoc]
    exact hprefix _

section
omit [JsNumber N]

theorem toolCalls_withNotice (notice : JsString) (prunedAt : Nat) (entry : SessionEntry N) :
    toolCalls (withNotice notice prunedAt entry) = toolCalls entry := by
  rcases entry with (_ | _ | _ | message | _ | _ | _ | _ | _) | _ | _ | _ <;> rfl

theorem resultHead_withNotice (notice : JsString) (prunedAt : Nat) (entry : SessionEntry N) :
    resultHead (withNotice notice prunedAt entry) = resultHead entry := by
  rcases entry with (_ | _ | _ | message | _ | _ | _ | _ | _) | _ | _ | _ <;> rfl

theorem getToolResultMessage_eq_some (h : getToolResultMessage entry = some message) :
    entry = .message (.toolResult message) := by
  rcases entry with (_ | _ | _ | m | _ | _ | _ | _ | _) | _ | _ | _ <;>
    simp_all [getToolResultMessage]

end

theorem estimateEntryTokens_withNotice {notice : JsString} (hnotice : notice ≠ []) (prunedAt : Nat)
    (h : getToolResultMessage entry = some message) :
    estimateEntryTokens (withNotice notice prunedAt entry) =
      estimateTextTokensHeuristic [notice] := by
  obtain ⟨u, rest, rfl⟩ := exists_cons_of_ne_nil hnotice
  rw [getToolResultMessage_eq_some h]
  rfl

theorem Limit.above_antitone {limit : Limit} {m n : Int} (hmn : m ≤ n)
    (h : limit.above n = true) : limit.above m = true := by
  cases limit with
  | finite value =>
    simp only [Limit.above, decide_eq_true_eq] at h ⊢
    exact lt_of_le_of_lt (by exact_mod_cast hmn) h
  | infinite => rfl
  | negInfinite | nan => exact absurd h Bool.false_ne_true

theorem candidateAt_eq_some {config : PruneConfig} {stale : List Nat} {i : Nat}
    {entry : SessionEntry N} {accumulatedTokens : Nat} {candidate : ToolOutputPruneCandidate}
    (h : candidateAt sanitizeText config stale i entry accumulatedTokens = some candidate) :
    ∃ message, getToolResultMessage entry = some message ∧ candidate.index = i ∧
      candidate.notice ≠ [] ∧ 0 < candidate.savings ∧ candidate.savings =
        estimateEntryTokens entry - estimateTextTokensHeuristic [candidate.notice] := by
  simp only [candidateAt] at h
  split at h
  · cases h
  · rename_i message hmessage
    split_ifs at h with hpruned hkept hworse
    obtain rfl := some.inj h
    refine ⟨message, hmessage, rfl, createPrunedNotice_ne_nil _ _ _, ?_, rfl⟩
    by_contra hsmall
    exact hworse (.inl (Int.not_lt.mp hsmall))

/-- An entry that is no candidate is none with fewer tokens behind it. -/
theorem candidateAt_antitone {config : PruneConfig} {stale : List Nat} {i : Nat} {w w' : Nat}
    (hle : w' ≤ w) (h : candidateAt sanitizeText config stale i entry w = none) :
    candidateAt sanitizeText config stale i entry w' = none := by
  have hkeeps : ∀ isStale isProtected : Bool,
      ((config.protectTokens.above w && !isStale) || isProtected) = true →
        ((config.protectTokens.above w' && !isStale) || isProtected) = true := by
    intro isStale isProtected hkept
    rw [Bool.or_eq_true, Bool.and_eq_true] at hkept ⊢
    exact hkept.imp_left fun hin => ⟨Limit.above_antitone (by exact_mod_cast hle) hin.1, hin.2⟩
  simp only [candidateAt] at h ⊢
  split at h
  · rfl
  · split_ifs at h ⊢ with hpruned hkept hkept' hworse
    all_goals first | rfl | exact absurd (hkeeps _ _ ‹_›) ‹_›

variable (config : PruneConfig)

theorem candidateAt_withNotice (stale : List Nat) (i : Nat) (entry : SessionEntry N)
    (accumulatedTokens : Nat) (notice : JsString) (prunedAt : Nat)
    (h : getToolResultMessage entry = some message) :
    candidateAt sanitizeText config stale i (withNotice notice prunedAt entry)
      accumulatedTokens = none := by
  rw [getToolResultMessage_eq_some h]
  rfl

/-! ## The pruned entries -/

theorem index_of_mem_collectFrom {config : PruneConfig} {stale : List Nat} {i : Nat}
    {entries : List (SessionEntry N)} {candidate : ToolOutputPruneCandidate}
    (h : candidate ∈ (collectFrom sanitizeText config stale i entries).2) :
    i ≤ candidate.index := by
  induction entries generalizing i with
  | nil => exact absurd h not_mem_nil
  | cons entry entries ih =>
    rw [collectFrom, mem_append, Option.mem_toList] at h
    rcases h with h | h
    · exact Nat.le_of_succ_le (ih h)
    · obtain ⟨message, -, hindex, -⟩ := candidateAt_eq_some sanitizeText h
      exact Nat.le_of_eq hindex.symm

/-- The entries behind the first are replaced by the candidates behind it. -/
theorem replaceFrom_collectFrom (stale : List Nat) (i : Nat) (entry : SessionEntry N)
    (entries : List (SessionEntry N)) (prunedAt : Nat) :
    replaceFrom (collectFrom sanitizeText config stale i (entry :: entries)).2 prunedAt i
        (entry :: entries) = replaced (candidateAt sanitizeText config stale i entry
          (collectFrom sanitizeText config stale (i + 1) entries).1) prunedAt entry ::
        replaceFrom (collectFrom sanitizeText config stale (i + 1) entries).2 prunedAt (i + 1)
          entries := by
  have hlater := @index_of_mem_collectFrom N _ sanitizeText config stale (i + 1) entries
  rw [collectFrom]
  generalize collectFrom sanitizeText config stale (i + 1) entries = later at hlater ⊢
  obtain ⟨accumulatedTokens, candidates⟩ := later
  simp only at hlater ⊢
  have hcandidate := @candidateAt_eq_some N _ sanitizeText config stale i entry accumulatedTokens
  generalize candidateAt sanitizeText config stale i entry accumulatedTokens = candidate
    at hcandidate ⊢
  rw [replaceFrom, zipIdx_cons, map_cons, replaceFrom]
  congr 1
  · -- none of the later candidates is at the first entry
    have hnone : candidates.find? (fun c => c.index = i) = none := by
      rw [find?_eq_none]
      intro c hc hindex
      have := hlater hc
      simp only [decide_eq_true_eq] at hindex
      omega
    rw [find?_append, hnone, Option.none_or]
    cases candidate with
    | none => rfl
    | some c =>
      obtain ⟨-, -, hindex, -⟩ := hcandidate rfl
      simp [replaced, hindex]
  · refine map_congr_left fun pair hpair => ?_
    obtain ⟨hlow, -⟩ := mem_zipIdx hpair
    have hnone : candidate.toList.find? (fun c => c.index = pair.2) = none := by
      cases candidate with
      | none => rfl
      | some c =>
        obtain ⟨-, -, hindex, -⟩ := hcandidate rfl
        have hne : ¬ c.index = pair.2 := by omega
        simp [hne]
    rw [find?_append, hnone, Option.or_none]

/-- **One entry after it was replaced**: no candidate, no more tokens, and the savings are what
it has lost. -/
theorem replaced_candidateAt (stale : List Nat) (i : Nat) (entry : SessionEntry N) (w : Nat)
    (prunedAt : Nat) : (∀ w' ≤ w, candidateAt sanitizeText config stale i
        (replaced (candidateAt sanitizeText config stale i entry w) prunedAt entry) w' = none) ∧
      resultTokens (replaced (candidateAt sanitizeText config stale i entry w) prunedAt entry)
        ≤ resultTokens entry ∧ (estimateEntryTokens
          (replaced (candidateAt sanitizeText config stale i entry w) prunedAt entry) : Int) +
        ((candidateAt sanitizeText config stale i entry w).toList.map
          ToolOutputPruneCandidate.savings).sum = estimateEntryTokens entry := by
  rcases hcandidate : candidateAt sanitizeText config stale i entry w with _ | candidate
  · exact ⟨fun w' hle => candidateAt_antitone sanitizeText hle hcandidate, Nat.le_refl _,
      Int.add_zero _⟩
  · obtain ⟨message, hmessage, -, hnotice, hpos, hsavings⟩ :=
      candidateAt_eq_some sanitizeText hcandidate
    have htokens := estimateEntryTokens_withNotice hnotice prunedAt hmessage
    refine ⟨fun w' _ => candidateAt_withNotice sanitizeText config stale i entry w' _ _ hmessage,
      ?_, ?_⟩
    · have hresult : resultTokens entry = estimateEntryTokens entry := by
        rw [resultTokens, hmessage]
      have hreplaced : resultTokens (withNotice candidate.notice prunedAt entry) =
          estimateEntryTokens (withNotice candidate.notice prunedAt entry) := by
        rw [getToolResultMessage_eq_some hmessage]
        rfl
      rw [replaced, hreplaced, hresult, htokens]
      omega
    · rw [replaced, htokens, Option.toList_some, map_singleton, sum_singleton, hsavings]
      omega

/-- **The loop on its own result**: no candidates, no larger window, and the savings are what
the entries have lost. -/
theorem collectFrom_replaceFrom (stale : List Nat) (i : Nat) (entries : List (SessionEntry N))
    (prunedAt : Nat) : (collectFrom sanitizeText config stale i
        (replaceFrom (collectFrom sanitizeText config stale i entries).2 prunedAt i entries)).2
          = [] ∧ (collectFrom sanitizeText config stale i
        (replaceFrom (collectFrom sanitizeText config stale i entries).2 prunedAt i entries)).1
          ≤ (collectFrom sanitizeText config stale i entries).1 ∧
      (totalTokens (replaceFrom (collectFrom sanitizeText config stale i entries).2 prunedAt i
          entries) : Int) + ((collectFrom sanitizeText config stale i entries).2.map
          ToolOutputPruneCandidate.savings).sum = totalTokens entries := by
  induction entries generalizing i with
  | nil => exact ⟨rfl, Nat.le_refl _, rfl⟩
  | cons entry entries ih =>
    obtain ⟨hnone, hwindow, htotal⟩ := ih (i + 1)
    rw [replaceFrom_collectFrom]
    generalize replaceFrom (collectFrom sanitizeText config stale (i + 1) entries).2 prunedAt
      (i + 1) entries = later at hnone hwindow htotal
    obtain ⟨hsettled, hresult, hestimate⟩ := replaced_candidateAt sanitizeText config stale i entry
      (collectFrom sanitizeText config stale (i + 1) entries).1 prunedAt
    simp only [collectFrom, totalTokens, map_cons, sum_cons, map_append,
      sum_append, Nat.cast_add] at htotal ⊢
    refine ⟨?_, Nat.add_le_add hwindow hresult, ?_⟩
    · rw [hnone, hsettled _ hwindow]
      rfl
    · omega

theorem buildStalenessIndex_replaceFrom (candidates : List ToolOutputPruneCandidate)
    (prunedAt : Nat) (entries : List (SessionEntry N)) :
    buildStalenessIndex (replaceFrom candidates prunedAt 0 entries) =
      buildStalenessIndex entries := by
  have hview : ∀ {α : Type} (view : SessionEntry N → α),
      (∀ notice prunedAt entry, view (withNotice notice prunedAt entry) = view entry) →
      (replaceFrom candidates prunedAt 0 entries).map view = entries.map view := by
    intro α view hsame
    have hentries : entries.map view = (entries.zipIdx 0).map (view ∘ Prod.fst) := by
      rw [← map_map, zipIdx_map_fst]
    rw [replaceFrom, map_map, hentries]
    refine map_congr_left fun pair _ => ?_
    simp only [Function.comp_apply]
    cases candidates.find? (fun candidate => candidate.index = pair.2) with
    | none => rfl
    | some candidate => exact hsame _ _ _
  exact buildStalenessIndex_congr (hview _ toolCalls_withNotice) (hview _ resultHead_withNotice)

omit [JsNumber N] in
theorem getElem?_replaceFrom {candidates : List ToolOutputPruneCandidate} {i : Nat}
    (hi : i ∉ candidates.map ToolOutputPruneCandidate.index) (prunedAt : Nat)
    (entries : List (SessionEntry N)) :
    (replaceFrom candidates prunedAt 0 entries)[i]? = entries[i]? := by
  have hnone : candidates.find? (fun candidate => candidate.index = i) = none := by
    rw [find?_eq_none]
    intro candidate hcandidate hindex
    exact hi (mem_map.mpr ⟨candidate, hcandidate, of_decide_eq_true hindex⟩)
  rw [replaceFrom, getElem?_map, getElem?_zipIdx]
  cases entries[i]? with
  | none => rfl
  | some entry =>
    simp only [Option.map_some, Nat.zero_add, hnone]
    rfl

/-- **Pruning is accounted exactly and is idempotent.**  For every sanitizer, entries,
configuration and options: the reported savings are what the entries have lost in estimated
tokens, entries that are not reported as pruned are as before, and pruning the result again
prunes nothing. -/
theorem pruneToolOutputs_exact (entries : List (SessionEntry N)) (config : PruneConfig)
    (relaxedMinimum : Option Limit) (now now' : Nat) :
    let result := pruneToolOutputs sanitizeText entries config relaxedMinimum now
    result.tokensSaved = (totalTokens entries : Int) - totalTokens result.entries ∧
      (∀ i, i ∉ result.prunedEntries → result.entries[i]? = entries[i]?) ∧
      pruneToolOutputs sanitizeText result.entries config relaxedMinimum now' =
        ⟨0, 0, [], result.entries⟩ := by
  obtain ⟨hnone, -, htotal⟩ := collectFrom_replaceFrom sanitizeText config
    (buildStalenessIndex entries) 0 entries now
  have hstale := buildStalenessIndex_replaceFrom
    (collectFrom sanitizeText config (buildStalenessIndex entries) 0 entries).2 now entries
  by_cases hprunes : (minimumSavings config relaxedMinimum).above
      (collectToolOutputPruneCandidates sanitizeText entries config).2 = true ∨
        (collectToolOutputPruneCandidates sanitizeText entries config).1 = []
  · -- nothing is pruned, so the second run is the first
    have hkept : ∀ t, pruneToolOutputs sanitizeText entries config relaxedMinimum t =
        ⟨0, 0, [], entries⟩ := fun t => if_pos hprunes
    simp only [hkept]
    exact ⟨(Int.sub_self _).symm, fun _ _ => trivial, trivial⟩
  · have hpruned : pruneToolOutputs sanitizeText entries config relaxedMinimum now = ⟨_, _, _, _⟩ :=
      if_neg hprunes
    simp only [hpruned]
    refine ⟨?_, fun i hi => getElem?_replaceFrom hi now entries, ?_⟩
    · exact eq_sub_of_add_eq' htotal
    · refine if_pos (.inr ?_)
      rw [hstale]
      exact hnone

end Pruning
end GajaeCode
