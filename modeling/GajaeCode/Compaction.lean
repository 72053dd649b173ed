import GajaeCode.SessionContext

/-! # Preparing a compaction

`findCutPoint` and `prepareCompaction` of
`packages/agent/src/compaction/compaction.ts`.  The entries after the previous
compaction are cut in up to three parts: what is summarized, the front of a split turn
and what is kept.  The context, however, also shows the entries that the previous
compaction kept, which lie before it.

The estimate of an entry's tokens and the budget for recent tokens are parameters: the
one is a heuristic on message texts, the other floating-point arithmetic on the
settings, and nothing here depends on their values.
-/
namespace GajaeCode
open JsString List Option
variable {entries : List (TreeEntry M C H)} {startIndex : Nat}

variable {M C H : Type}

/-- `getMessageFromEntry`, with the entry's id. -/
def getMessageFromEntry (e : TreeEntry M C H) : Option (ContextMessage M C H) :=
  match e.body with
  | .message role message => some ⟨e.id, .stored role message⟩
  | .customMessage content => some ⟨e.id, .custom content e.timestamp⟩
  | .branchSummary summary fromId => some ⟨e.id, .branchSummary summary fromId e.timestamp⟩
  | .compaction .. | .settings => none

/-- A valid place to cut: never at a tool result. -/
def isCutPoint (e : TreeEntry M C H) : Bool :=
  match e.body with
  | .message role _ =>
      match role with
      | .bashExecution | .hookMessage | .branchSummary | .compactionSummary | .user
      | .assistant => true
      | .toolResult | .other => false
  | .branchSummary .. | .customMessage _ => true
  | .compaction .. | .settings => false

def startsTurn (e : TreeEntry M C H) : Bool :=
  match e.body with
  | .branchSummary .. | .customMessage _ => true
  | .message role _ => role = .user || role = .bashExecution
  | .compaction .. | .settings => false

def isUserMessage (e : TreeEntry M C H) : Bool :=
  match e.body with
  | .message role _ => role = .user
  | _ => false

def findValidCutPoints (entries : List (TreeEntry M C H)) (startIndex endIndex : Nat) :
    List Nat :=
  (List.range' startIndex (endIndex - startIndex)).filter
    (fun i => entries[i]?.any isCutPoint)

/-- `findTurnStartIndex`: from the entry back to the start, `none` for `-1`. -/
def findTurnStartIndex (entries : List (TreeEntry M C H)) (startIndex : Nat) :
    Nat → Option Nat
  | 0 => if startIndex = 0 ∧ entries[0]?.any startsTurn then some 0 else none
  | i + 1 =>
      if startIndex ≤ i + 1 then
        if entries[i + 1]?.any startsTurn then some (i + 1)
        else findTurnStartIndex entries startIndex i
      else none

structure CutPointResult where
  firstKeptEntryIndex : Nat
  turnStartIndex : Option Nat
  isSplitTurn : Bool
  deriving DecidableEq

/-- The walk from the newest entry: the first one at which the tokens reach the budget.
`n` entries from `startIndex` on are left. -/
def budgetReachedAt (tokens : Nat → Nat) (startIndex keepRecentTokens : Nat) :
    Nat → Nat → Option Nat
  | 0, _ => none
  | n + 1, accumulatedTokens =>
      let total := accumulatedTokens + tokens (startIndex + n)
      if keepRecentTokens ≤ total then some (startIndex + n)
      else budgetReachedAt tokens startIndex keepRecentTokens n total

/-- The cut point for a reached budget: the first one at or after the entry, or else the
last one; the first of all if the budget was not reached. -/
def chooseCutPoint (first : Nat) (cutPoints : List Nat) : Option Nat → Nat
  | none => first
  | some i => (cutPoints.find? (fun c => i ≤ c)).getD (cutPoints.getLastD first)

/-- Settings before the cut point are kept with it. -/
def includeSettings (entries : List (TreeEntry M C H)) (startIndex : Nat) : Nat → Nat
  | 0 => 0
  | cut + 1 =>
      if startIndex < cut + 1 ∧ entries[cut]?.any (fun e => !e.isCompaction && !e.isMessage) then
        includeSettings entries startIndex cut
      else cut + 1

section Prepare

variable (estimateEntryTokens : TreeEntry M C H → Nat)

def tokensAt (entries : List (TreeEntry M C H)) (i : Nat) : Nat :=
  (entries[i]?.map estimateEntryTokens).getD 0

def findCutPoint (entries : List (TreeEntry M C H)) (startIndex endIndex keepRecentTokens : Nat) :
    CutPointResult :=
  match findValidCutPoints entries startIndex endIndex with
  | [] => ⟨startIndex, none, false⟩
  | first :: rest =>
    let reached := budgetReachedAt (tokensAt estimateEntryTokens entries) startIndex
      keepRecentTokens (endIndex - startIndex) 0
    let cutIndex :=
      includeSettings entries startIndex (chooseCutPoint first (first :: rest) reached)
    let atUserMessage := entries[cutIndex]?.any isUserMessage
    let turnStartIndex :=
      if atUserMessage then none else findTurnStartIndex entries startIndex cutIndex
    ⟨cutIndex, turnStartIndex, !atUserMessage && turnStartIndex.isSome⟩

/-- `CompactionPreparation`, as far as it is about messages. -/
structure CompactionPreparation (M C H : Type) where
  firstKeptEntryId : JsString
  messagesToSummarize : List (ContextMessage M C H)
  turnPrefixMessages : List (ContextMessage M C H)
  recentMessages : List (ContextMessage M C H)
  isSplitTurn : Bool
  previousSummary : Option JsString

def messagesBetween (entries : List (TreeEntry M C H)) (startIndex endIndex : Nat) :
    List (ContextMessage M C H) :=
  ((entries.drop startIndex).take (endIndex - startIndex)).filterMap getMessageFromEntry

/-- The index of the last compaction, from the end of the path. -/
def prevCompactionIndex (pathEntries : List (TreeEntry M C H)) : Option Nat :=
  (pathEntries.reverse.findIdx? TreeEntry.isCompaction).map (fun i => pathEntries.length - 1 - i)

/-- The entry after the last compaction. -/
def boundaryStart (pathEntries : List (TreeEntry M C H)) : Nat :=
  match prevCompactionIndex pathEntries with
  | some i => i + 1
  | none => 0

/-- `prepareCompaction`.  `keepRecentTokens` is the corrected budget, which depends on
the tokens of the history. -/
def prepareCompaction (keepRecentTokens : Nat → Nat) (pathEntries : List (TreeEntry M C H)) :
    Option (CompactionPreparation M C H) :=
  if pathEntries.getLast?.any TreeEntry.isCompaction then none
  else
    let start := boundaryStart pathEntries
    let stop := pathEntries.length
    let historyTokens := ((pathEntries.drop start).map estimateEntryTokens).sum
    let cutPoint :=
      findCutPoint estimateEntryTokens pathEntries start stop (keepRecentTokens historyTokens)
    match pathEntries[cutPoint.firstKeptEntryIndex]? with
    | none => none
    | some firstKeptEntry =>
      if firstKeptEntry.id = [] then none
      else
        let historyEnd :=
          if cutPoint.isSplitTurn then cutPoint.turnStartIndex.getD 0
          else cutPoint.firstKeptEntryIndex
        let messagesToSummarize := messagesBetween pathEntries start historyEnd
        let turnPrefixMessages :=
          if cutPoint.isSplitTurn then
            messagesBetween pathEntries (cutPoint.turnStartIndex.getD 0)
              cutPoint.firstKeptEntryIndex
          else []
        let recentMessages := messagesBetween pathEntries cutPoint.firstKeptEntryIndex stop
        if messagesToSummarize.length = 0 ∧ turnPrefixMessages.length = 0 then none
        else
          let previousSummary :=
            (prevCompactionIndex pathEntries).bind fun i =>
              pathEntries[i]?.bind fun e =>
                match e.body with
                | .compaction summary .. => some summary
                | _ => none
          some {
            firstKeptEntryId := firstKeptEntry.id
            messagesToSummarize
            turnPrefixMessages
            recentMessages
            isSplitTurn := cutPoint.isSplitTurn
            previousSummary }

end Prepare

/-! ## Where the cuts are -/

theorem mem_findValidCutPoints {endIndex i : Nat}
    (h : i ∈ findValidCutPoints entries startIndex endIndex) : startIndex ≤ i ∧ i < endIndex := by
  have hrange := (mem_filter.mp h).1
  rw [mem_range'_1] at hrange
  omega

theorem chooseCutPoint_mem (first : Nat) (rest : List Nat) (reached : Option Nat) :
    chooseCutPoint first (first :: rest) reached ∈ first :: rest := by
  cases reached with
  | none => exact mem_cons_self
  | some i =>
    rw [chooseCutPoint]
    cases hfind : (first :: rest).find? (fun c => i ≤ c) with
    | none =>
      rw [getD_none, getLastD_cons]
      exact getLastD_mem_cons
    | some c => exact mem_of_find?_eq_some hfind

theorem includeSettings_bounds (entries : List (TreeEntry M C H)) {cut : Nat} (h : startIndex ≤ cut)
    : startIndex ≤ includeSettings entries startIndex cut ∧
      includeSettings entries startIndex cut ≤ cut := by
  induction cut with
  | zero => exact ⟨h, le_rfl⟩
  | succ cut ih =>
    rw [includeSettings]
    split_ifs with hback
    · have := ih (by omega)
      omega
    · exact ⟨h, le_rfl⟩

theorem findTurnStartIndex_bounds {i t : Nat} (h : findTurnStartIndex entries startIndex i = some t)
    : startIndex ≤ t ∧ t ≤ i := by
  induction i with
  | zero =>
    rw [findTurnStartIndex] at h
    split_ifs at h with hstart
    obtain rfl := some.inj h
    exact ⟨hstart.1.le, le_rfl⟩
  | succ i ih =>
    rw [findTurnStartIndex] at h
    split_ifs at h with hle hturn
    · obtain rfl := some.inj h
      exact ⟨hle, le_rfl⟩
    · have := ih h
      omega

/-- The cut lies in the window, and a split turn starts in it before the cut. -/
theorem findCutPoint_bounds (estimateEntryTokens : TreeEntry M C H → Nat)
    (entries : List (TreeEntry M C H)) {endIndex : Nat} (h : startIndex ≤ endIndex)
    (keepRecentTokens : Nat) :
    let cut := findCutPoint estimateEntryTokens entries startIndex endIndex keepRecentTokens
    startIndex ≤ cut.firstKeptEntryIndex ∧ cut.firstKeptEntryIndex ≤ endIndex ∧
      (cut.isSplitTurn = true → ∃ t, cut.turnStartIndex = some t ∧ startIndex ≤ t ∧
        t ≤ cut.firstKeptEntryIndex) := by
  intro cut
  simp only [cut, findCutPoint]
  split
  · exact ⟨le_rfl, h, fun hsplit => absurd hsplit Bool.false_ne_true⟩
  · rename_i first rest hpoints
    set chosen := chooseCutPoint first (first :: rest) (budgetReachedAt
      (tokensAt estimateEntryTokens entries) startIndex keepRecentTokens (endIndex - startIndex) 0)
    have hmem : chosen ∈ findValidCutPoints entries startIndex endIndex := by
      rw [hpoints]
      exact chooseCutPoint_mem ..
    have hchosen := mem_findValidCutPoints hmem
    have hbounds := includeSettings_bounds entries hchosen.1
    refine ⟨hbounds.1, hbounds.2.trans hchosen.2.le, fun hsplit => ?_⟩
    simp only [Bool.and_eq_true, Bool.not_eq_true', isSome_iff_exists] at hsplit
    obtain ⟨huser, t, ht⟩ := hsplit
    rw [huser] at ht
    refine ⟨t, ?_, findTurnStartIndex_bounds ht⟩
    rw [huser]
    exact ht

theorem messagesBetween_append (entries : List (TreeEntry M C H)) {i j k : Nat} (hij : i ≤ j)
    (hjk : j ≤ k) :
    messagesBetween entries i j ++ messagesBetween entries j k = messagesBetween entries i k := by
  have hsplit : (entries.drop i).take (k - i) =
      (entries.drop i).take (j - i) ++ (entries.drop j).take (k - j) := by
    have hdrop : entries.drop j = (entries.drop i).drop (j - i) := by
      rw [drop_drop, Nat.add_sub_cancel' hij]
    rw [hdrop, ← take_add]
    congr 1
    omega
  rw [messagesBetween, messagesBetween, messagesBetween, hsplit, filterMap_append]

theorem messagesBetween_length (entries : List (TreeEntry M C H)) (i : Nat) :
    messagesBetween entries i entries.length = (entries.drop i).filterMap getMessageFromEntry := by
  rw [messagesBetween, ← length_drop, take_length]

def CompactionPreparation.all (prep : CompactionPreparation M C H) :
    List (ContextMessage M C H) :=
  prep.messagesToSummarize ++ prep.turnPrefixMessages ++ prep.recentMessages

theorem boundaryStart_le (path : List (TreeEntry M C H)) : boundaryStart path ≤ path.length := by
  rw [boundaryStart, prevCompactionIndex]
  cases hfind : path.reverse.findIdx? TreeEntry.isCompaction with
  | none => exact Nat.zero_le _
  | some i =>
    have := (findIdx?_eq_some_iff_getElem.mp hfind).1
    rw [length_reverse] at this
    simp only [map_some]
    omega

variable {prep : CompactionPreparation M C H}

/-- **The lists of a preparation** hold the messages of all entries after the boundary,
in order. -/
theorem prepareCompaction_all {estimateEntryTokens : TreeEntry M C H → Nat}
    {keepRecentTokens : Nat → Nat} {path : List (TreeEntry M C H)}
    (h : prepareCompaction estimateEntryTokens keepRecentTokens path = some prep) :
    prep.all = (path.drop (boundaryStart path)).filterMap getMessageFromEntry := by
  obtain ⟨hstart, hstop, hsplit⟩ := findCutPoint_bounds estimateEntryTokens path
    (boundaryStart_le path)
    (keepRecentTokens ((path.drop (boundaryStart path)).map estimateEntryTokens).sum)
  rw [prepareCompaction] at h
  split_ifs at h with hlast
  simp only at h
  generalize findCutPoint estimateEntryTokens path (boundaryStart path) path.length
    (keepRecentTokens ((path.drop (boundaryStart path)).map estimateEntryTokens).sum) = cut
    at h hstart hstop hsplit
  split at h
  · exact absurd h (by simp)
  · split_ifs at h with hid hturn hempty hempty
    · obtain rfl := some.inj h
      obtain ⟨t, ht, hst, htk⟩ := hsplit hturn
      simp only [CompactionPreparation.all, ht, getD_some]
      rw [messagesBetween_append path hst htk, messagesBetween_append path hstart hstop,
        messagesBetween_length]
    · obtain rfl := some.inj h
      simp only [CompactionPreparation.all, append_nil]
      rw [messagesBetween_append path hstart hstop, messagesBetween_length]

/-- A path without compactions, or cut at its last one. -/
theorem path_cases (path : List (TreeEntry M C H)) :
    (∀ e ∈ path, e.isCompaction = false) ∨ ∃ before c after, path = before ++ c :: after ∧
      c.isCompaction = true ∧ ∀ e ∈ after, e.isCompaction = false := by
  induction path with
  | nil => exact .inl (fun _ h => absurd h not_mem_nil)
  | cons e path ih =>
    rcases ih with hnone | ⟨before, c, after, rfl, hc, hafter⟩
    · by_cases he : e.isCompaction = true
      · exact .inr ⟨[], e, path, rfl, he, hnone⟩
      · rw [Bool.not_eq_true] at he
        exact .inl (forall_mem_cons.mpr ⟨he, hnone⟩)
    · exact .inr ⟨e :: before, c, after, rfl, hc, hafter⟩

theorem boundaryStart_of_none {path : List (TreeEntry M C H)}
    (h : ∀ e ∈ path, e.isCompaction = false) : boundaryStart path = 0 := by
  have hfind : path.reverse.findIdx? TreeEntry.isCompaction = none :=
    findIdx?_eq_none_iff.mpr (fun e he => h e (mem_reverse.mp he))
  rw [boundaryStart, prevCompactionIndex, hfind]
  rfl

theorem boundaryStart_of_split {before after : List (TreeEntry M C H)} {c : TreeEntry M C H}
    (hc : c.isCompaction = true) (hafter : ∀ e ∈ after, e.isCompaction = false) :
    boundaryStart (before ++ c :: after) = before.length + 1 := by
  have hrev : (before ++ c :: after).reverse = after.reverse ++ c :: before.reverse := by simp
  have hnone : after.reverse.findIdx? TreeEntry.isCompaction = none :=
    findIdx?_eq_none_iff.mpr (fun e he => hafter e (mem_reverse.mp he))
  have hfind : (before ++ c :: after).reverse.findIdx? TreeEntry.isCompaction =
      some after.length := by
    rw [hrev, findIdx?_append, hnone, findIdx?_cons, if_pos hc]
    simp
  rw [boundaryStart, prevCompactionIndex, hfind]
  simp only [map_some, length_append, length_cons]
  omega

/-! ## The conversation -/

/-- The message is a compaction's own summary. -/
def ContextMessage.isSummary (m : ContextMessage M C H) : Bool :=
  match m.message with
  | .compactionSummary .. => true
  | _ => false

/-- What the context shows, other than the summary of the previous compaction. -/
def shownMessages (path : List (TreeEntry M C H)) : List (ContextMessage M C H) :=
  (buildSessionContext path).filter (fun m => !m.isSummary)

theorem contextMessage_spec {e : TreeEntry M C H} {m : ContextMessage M C H}
    (h : e.contextMessage = some m) :
    m.isSummary = false ∧ m.entryId = e.id ∧ getMessageFromEntry e = some m := by
  unfold TreeEntry.contextMessage at h
  unfold getMessageFromEntry
  cases hbody : e.body <;> simp only [hbody] at h ⊢
  case branchSummary =>
    split_ifs at h
    obtain rfl := some.inj h
    exact ⟨rfl, rfl, rfl⟩
  case message | customMessage =>
    obtain rfl := some.inj h
    exact ⟨rfl, rfl, rfl⟩
  all_goals exact absurd h (by simp)

theorem getMessageFromEntry_entryId {e : TreeEntry M C H} {m : ContextMessage M C H}
    (h : getMessageFromEntry e = some m) : m.entryId = e.id := by
  unfold getMessageFromEntry at h
  cases hbody : e.body <;> simp only [hbody] at h
  case message | customMessage | branchSummary =>
    obtain rfl := some.inj h
    rfl
  all_goals exact absurd h (by simp)

theorem filter_contextMessages (entries : List (TreeEntry M C H)) :
    (entries.filterMap TreeEntry.contextMessage).filter (fun m => !m.isSummary) =
      entries.filterMap TreeEntry.contextMessage := by
  apply filter_eq_self.mpr
  intro m hm
  obtain ⟨e, -, he⟩ := mem_filterMap.mp hm
  rw [(contextMessage_spec he).1]
  rfl

/-- The context shows a part of what a preparation would list, in the same order. -/
theorem filterMap_contextMessage_sublist (entries : List (TreeEntry M C H)) :
    (entries.filterMap TreeEntry.contextMessage).Sublist
      (entries.filterMap getMessageFromEntry) := by
  induction entries with
  | nil => exact Sublist.refl _
  | cons e entries ih =>
    cases hm : e.contextMessage with
    | none =>
      rw [filterMap_cons_none hm]
      cases hg : getMessageFromEntry e with
      | none => rw [filterMap_cons_none hg]; exact ih
      | some m => rw [filterMap_cons_some hg]; exact ih.cons m
    | some m =>
      rw [filterMap_cons_some hm, filterMap_cons_some (contextMessage_spec hm).2.2]
      exact ih.cons_cons m

theorem shownMessages_of_none {path : List (TreeEntry M C H)} (hpath : IsRootedPath path)
    (h : ∀ e ∈ path, e.isCompaction = false) :
    shownMessages path = path.filterMap TreeEntry.contextMessage := by
  have hlatest : latestCompaction path = none := by
    apply find?_eq_none.mpr
    intro e he
    rw [h e (mem_reverse.mp he)]
    exact Bool.false_ne_true
  rw [shownMessages, buildSessionContext, sessionPath_of_isRootedPath hpath, contextMessages,
    hlatest]
  exact filter_contextMessages path

theorem shownMessages_of_split {before after : List (TreeEntry M C H)} {c : TreeEntry M C H}
    (hpath : IsRootedPath (before ++ c :: after)) {summary firstKeptEntryId : JsString}
    {shortSummary : Option JsString} {tokensBefore : Nat}
    (hbody : c.body = .compaction summary shortSummary tokensBefore firstKeptEntryId none)
    (hafter : ∀ e ∈ after, e.isCompaction = false) :
    shownMessages (before ++ c :: after) = keptMessages firstKeptEntryId before ++
      after.filterMap TreeEntry.contextMessage := by
  have hc : c.isCompaction = true := by rw [TreeEntry.isCompaction, hbody]
  have hlatest : latestCompaction (before ++ c :: after) = some c := by
    have hnone : after.reverse.find? TreeEntry.isCompaction = none := by
      apply find?_eq_none.mpr
      intro e he
      rw [hafter e (mem_reverse.mp he)]
      exact Bool.false_ne_true
    rw [latestCompaction, reverse_append, reverse_cons, append_assoc,
      find?_append, hnone, singleton_append, find?_cons_of_pos hc]
    rfl
  have hother : ∀ e ∈ before, (e.isCompaction && decide (e.id = c.id)) = false := by
    intro e he
    have hnodup := hpath.nodup
    rw [map_append, map_cons, nodup_append] at hnodup
    have hne := hnodup.2.2 e.id (mem_map_of_mem he) c.id mem_cons_self
    rw [decide_eq_false hne, Bool.and_false]
  have hidx : (before ++ c :: after).findIdx (fun e => e.isCompaction && e.id = c.id) =
      before.length := by
    rw [findIdx_append, findIdx_eq_length.mpr hother, if_neg (lt_irrefl _), findIdx_cons, hc]
    simp
  rw [shownMessages, buildSessionContext, sessionPath_of_isRootedPath hpath, contextMessages,
    hlatest]
  simp only [hbody, hidx, isSome_none, Bool.false_eq_true, if_false]
  have hdrop : (before ++ c :: after).drop (before.length + 1) = after := by
    rw [← drop_drop, drop_left]
    rfl
  rw [take_left, hdrop, filter_cons_of_neg (by simp [ContextMessage.isSummary]),
    filter_append, filter_contextMessages, keptMessages, filter_contextMessages]

/-! ## Nothing is lost -/

/-- Every message shown is in exactly one of the lists of the preparation, and they keep
the order of the context. -/
structure LosesNothing (prep : CompactionPreparation M C H)
    (shown : List (ContextMessage M C H)) : Prop where
  once : ∀ m ∈ shown,
    (m ∈ prep.messagesToSummarize ∧ m ∉ prep.turnPrefixMessages ∧ m ∉ prep.recentMessages) ∨
    (m ∉ prep.messagesToSummarize ∧ m ∈ prep.turnPrefixMessages ∧ m ∉ prep.recentMessages) ∨
    (m ∉ prep.messagesToSummarize ∧ m ∉ prep.turnPrefixMessages ∧ m ∈ prep.recentMessages)
  ordered : shown.Sublist prep.all

theorem LosesNothing.mem_all {shown : List (ContextMessage M C H)} (h : LosesNothing prep shown)
    {m : ContextMessage M C H} (hm : m ∈ shown) : m ∈ prep.all :=
  h.ordered.subset hm

/-- The ids of the listed messages are those of their entries, so none is listed twice. -/
theorem nodup_filterMap_getMessage (h : (entries.map TreeEntry.id).Nodup) :
    (entries.filterMap getMessageFromEntry).Nodup := by
  induction entries with
  | nil => exact nodup_nil
  | cons e entries ih =>
    rw [map_cons, nodup_cons] at h
    cases hm : getMessageFromEntry e with
    | none =>
      rw [filterMap_cons_none hm]
      exact ih h.2
    | some m =>
      rw [filterMap_cons_some hm, nodup_cons]
      refine ⟨fun hmem => h.1 ?_, ih h.2⟩
      obtain ⟨e', he', hm'⟩ := mem_filterMap.mp hmem
      rw [← getMessageFromEntry_entryId hm, getMessageFromEntry_entryId hm']
      exact mem_map_of_mem he'

theorem losesNothing_of_sublist {shown : List (ContextMessage M C H)} (hnodup : prep.all.Nodup)
    (hsub : shown.Sublist prep.all) : LosesNothing prep shown := by
  refine ⟨fun m hm => ?_, hsub⟩
  have hmem := hsub.subset hm
  rw [CompactionPreparation.all, append_assoc, mem_append, mem_append] at hmem
  rw [CompactionPreparation.all, append_assoc, nodup_append, nodup_append] at hnodup
  obtain ⟨-, ⟨-, -, hturn⟩, hfirst⟩ := hnodup
  have hnotRest : m ∈ prep.messagesToSummarize →
      m ∉ prep.turnPrefixMessages ∧ m ∉ prep.recentMessages := fun h =>
    ⟨fun h' => hfirst m h m (mem_append_left _ h') rfl,
      fun h' => hfirst m h m (mem_append_right _ h') rfl⟩
  have hnotRecent : m ∈ prep.turnPrefixMessages → m ∉ prep.recentMessages :=
    fun h h' => hturn m h m h' rfl
  tauto

/-- **Compaction loses nothing exactly when the previous one kept nothing visible.**
For every rooted path without replacement histories, every estimate and budget: if a
preparation is returned, then every message the context shows is in exactly one of its
lists, in the order of the context, if and only if no entry from the `firstKeptEntryId`
of the last compaction up to that compaction shows a message. -/
theorem prepareCompaction_losesNothing_iff {estimateEntryTokens : TreeEntry M C H → Nat}
    {keepRecentTokens : Nat → Nat} {path : List (TreeEntry M C H)} (hpath : IsRootedPath path)
    (hremote : ∀ e ∈ path, ∀ summary shortSummary tokensBefore firstKeptEntryId history,
      e.body = .compaction summary shortSummary tokensBefore firstKeptEntryId history →
        history = none) {prep : CompactionPreparation M C H}
    (hprep : prepareCompaction estimateEntryTokens keepRecentTokens path = some prep) :
    LosesNothing prep (shownMessages path) ↔
      ∀ before c after summary shortSummary tokensBefore firstKeptEntryId history,
        path = before ++ c :: after →
        c.body = .compaction summary shortSummary tokensBefore firstKeptEntryId history →
        (∀ e ∈ after, e.isCompaction = false) →
        ∀ e ∈ before.dropWhile (fun e => e.id ≠ firstKeptEntryId), e.contextMessage = none := by
  have hall := prepareCompaction_all hprep
  have hnodup : prep.all.Nodup := by
    rw [hall]
    apply nodup_filterMap_getMessage
    exact Nodup.sublist ((drop_sublist _ path).map _) hpath.nodup
  constructor
  · rintro hloses before c after summary shortSummary tokensBefore firstKeptEntryId history rfl
      hbody hafter e he
    obtain rfl := hremote c (by simp) _ _ _ _ _ hbody
    have hc : c.isCompaction = true := by rw [TreeEntry.isCompaction, hbody]
    by_contra hshown
    obtain ⟨m, hm⟩ := ne_none_iff_exists'.mp hshown
    have hkept : m ∈ shownMessages (before ++ c :: after) := by
      rw [shownMessages_of_split hpath hbody hafter]
      exact mem_append_left _ (mem_filterMap.mpr ⟨e, he, hm⟩)
    -- the message comes from an entry before the compaction, the lists from those after it
    have hlisted := hloses.mem_all hkept
    rw [hall, boundaryStart_of_split hc hafter, ← drop_drop, drop_left] at hlisted
    obtain ⟨e', he', hm'⟩ := mem_filterMap.mp hlisted
    have hbefore : e ∈ before := dropWhile_sublist _ |>.subset he
    have hids := hpath.nodup
    rw [map_append, map_cons, nodup_append] at hids
    apply hids.2.2 e.id (mem_map_of_mem hbefore) e'.id
    · exact mem_cons_of_mem _ (mem_map_of_mem he')
    · rw [← getMessageFromEntry_entryId hm', (contextMessage_spec hm).2.1]
  · intro hsilent
    apply losesNothing_of_sublist hnodup
    rw [hall]
    rcases path_cases path with hnone | ⟨before, c, after, rfl, hc, hafter⟩
    · rw [shownMessages_of_none hpath hnone, boundaryStart_of_none hnone, drop_zero]
      exact filterMap_contextMessage_sublist path
    · cases hbody : c.body with
      | compaction summary shortSummary tokensBefore firstKeptEntryId history =>
        obtain rfl := hremote c (by simp) _ _ _ _ _ hbody
        have hkept : keptMessages firstKeptEntryId before = [] := by
          apply filterMap_eq_nil_iff.mpr
          exact hsilent before c after _ _ _ _ _ rfl hbody hafter
        rw [shownMessages_of_split hpath hbody hafter, hkept, nil_append,
          boundaryStart_of_split hc hafter, ← drop_drop, drop_left]
        exact filterMap_contextMessage_sublist after
      | _ => simp [TreeEntry.isCompaction, hbody] at hc

/-- A path of one exchange, a compaction that keeps from the entry `firstKept` on, and
another exchange with a question after it. -/
def compactedPath (firstKept : JsString) : List (TreeEntry Nat Nat Nat) :=
  [⟨js "q1", none, js "t1", .message .user 1⟩,
    ⟨js "a1", some (js "q1"), js "t2", .message .assistant 2⟩,
    ⟨js "s", some (js "a1"), js "t3", .settings⟩,
    ⟨js "c", some (js "s"), js "t4", .compaction (js "summary") none 9 firstKept none⟩,
    ⟨js "q2", some (js "c"), js "t5", .message .user 3⟩,
    ⟨js "a2", some (js "q2"), js "t6", .message .assistant 4⟩,
    ⟨js "q3", some (js "a2"), js "t7", .message .user 5⟩]

theorem compactedPath_isRootedPath (firstKept : JsString) :
    IsRootedPath (compactedPath firstKept) where
  nodup := by
    change ([js "q1", js "a1", js "s", js "c", js "q2", js "a2", js "q3"] : List JsString).Nodup
    decide
  named := by
    have hids : ∀ id ∈ [js "q1", js "a1", js "s", js "c", js "q2", js "a2", js "q3"],
        id ≠ ([] : JsString) := by decide
    exact fun e he => hids e.id (mem_map_of_mem (f := TreeEntry.id) he)
  root := by
    intro e rest h
    rw [compactedPath, List.cons.injEq] at h
    rw [← h.1]
  linked := by simp [compactedPath]

theorem compactedPath_history (firstKept : JsString) :
    ∀ e ∈ compactedPath firstKept, ∀ summary shortSummary tokensBefore firstKeptEntryId history,
      e.body = .compaction summary shortSummary tokensBefore firstKeptEntryId history →
        history = none := by
  intro e he _ _ _ _ history hbody
  simp only [compactedPath, mem_cons, not_mem_nil, or_false] at he
  rcases he with rfl | rfl | rfl | rfl | rfl | rfl | rfl <;>
    simp only [TreeEntryBody.compaction.injEq, reduceCtorEq] at hbody
  exact hbody.2.2.2.2.symm

/-- What is prepared for such a path when only the newest entry fits the budget. -/
def compactedPreparation : CompactionPreparation Nat Nat Nat where
  firstKeptEntryId := js "q3"
  messagesToSummarize := [⟨js "q2", .stored .user 3⟩, ⟨js "a2", .stored .assistant 4⟩]
  turnPrefixMessages := []
  recentMessages := [⟨js "q3", .stored .user 5⟩]
  isSplitTurn := false
  previousSummary := some (js "summary")

theorem prepareCompaction_compactedPath (firstKept : JsString) :
    prepareCompaction (fun _ => 1) (fun _ => 1) (compactedPath firstKept) =
      some compactedPreparation := by
  have hstart : boundaryStart (compactedPath firstKept) = 4 := rfl
  have hstop : (compactedPath firstKept).length = 7 := rfl
  have hcut : findCutPoint (fun _ => 1) (compactedPath firstKept) 4 7 1 = ⟨6, none, false⟩ := rfl
  simp only [prepareCompaction, hstart, hstop, hcut]
  rfl

/-- Nothing is lost when the previous compaction kept settings only. -/
theorem prepareCompaction_losesNothing_settings :
    LosesNothing compactedPreparation (shownMessages (compactedPath (js "s"))) := by
  apply (prepareCompaction_losesNothing_iff (compactedPath_isRootedPath (js "s"))
    (compactedPath_history (js "s")) (prepareCompaction_compactedPath (js "s"))).mpr
  intro before c after summary shortSummary tokensBefore firstKeptEntryId history hsplit hbody
    hafter
  have hc : c.isCompaction = true := by rw [TreeEntry.isCompaction, hbody]
  -- the last compaction is the fourth entry
  have hlength : before.length = 3 := by
    have hstart : boundaryStart (before ++ c :: after) = before.length + 1 :=
      boundaryStart_of_split hc hafter
    rw [← hsplit, show boundaryStart (compactedPath (js "s")) = 4 from rfl] at hstart
    omega
  have hbefore : before = (compactedPath (js "s")).take 3 := by
    rw [hsplit, ← hlength, take_left]
  have hcompaction : (compactedPath (js "s"))[3]? = some c := by
    rw [hsplit, ← hlength]
    simp
  obtain rfl := some.inj hcompaction
  obtain ⟨-, -, -, rfl, -⟩ := TreeEntryBody.compaction.inj hbody
  rw [hbefore]
  decide

/-- **The answer kept by the previous compaction is lost**: the context shows it, and
the next preparation lists it nowhere. -/
theorem prepareCompaction_loses_kept : IsRootedPath (compactedPath (js "a1")) ∧
      prepareCompaction (fun _ => 1) (fun _ => 1) (compactedPath (js "a1")) =
        some compactedPreparation ∧
      ⟨js "a1", .stored .assistant 2⟩ ∈ shownMessages (compactedPath (js "a1")) ∧
      ⟨js "a1", .stored .assistant 2⟩ ∉ compactedPreparation.all ∧
      ¬ LosesNothing compactedPreparation (shownMessages (compactedPath (js "a1"))) := by
  have hshown : ⟨js "a1", .stored .assistant 2⟩ ∈ shownMessages (compactedPath (js "a1")) := by
    decide
  have hlost : ⟨js "a1", .stored .assistant 2⟩ ∉ compactedPreparation.all := by decide
  refine ⟨compactedPath_isRootedPath _, prepareCompaction_compactedPath _, hshown, hlost, ?_⟩
  intro hloses
  exact hlost (hloses.mem_all hshown)

end GajaeCode
