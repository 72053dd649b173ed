import GajaeCode.Compaction

/-! # Where a compaction cuts

What `findCutPoint` keeps together.  The chosen cut is at a message that may be kept
first; the settings before it are then taken in as well.  No tool result loses its call
by this, but the entry at the cut may now be one that says nothing about turns.
-/
namespace GajaeCode
open JsString List Option Nat

variable {M C H : Type}

def isAssistantMessage (e : TreeEntry M C H) : Bool :=
  match e.body with
  | .message role _ => role = .assistant
  | _ => false

def isToolResult (e : TreeEntry M C H) : Bool :=
  match e.body with
  | .message role _ => role = .toolResult
  | _ => false

/-- The assistant message at `a` is the one before the tool result at `t`: only tool
results and entries without a message stand between them. -/
structure IsCallOf (entries : List (TreeEntry M C H)) (a t : Nat) : Prop where
  before : a < t
  assistant : entries[a]?.any isAssistantMessage = true
  result : entries[t]?.any isToolResult = true
  between : ∀ i, a < i → i < t → ∀ e, entries[i]? = some e →
    isToolResult e = true ∨ getMessageFromEntry e = none

/-- Every tool result within the bounds has its assistant message within them. -/
def HasCalls (entries : List (TreeEntry M C H)) (startIndex endIndex : Nat) : Prop :=
  ∀ t, startIndex ≤ t → t < endIndex → entries[t]?.any isToolResult = true →
    ∃ a, startIndex ≤ a ∧ IsCallOf entries a t

variable {e : TreeEntry M C H}

theorem isCutPoint_of_isAssistantMessage (h : isAssistantMessage e = true) :
    isCutPoint e = true := by
  unfold isAssistantMessage at h
  unfold isCutPoint
  cases hbody : e.body with
  | message role m =>
    simp only [hbody, decide_eq_true_eq] at h
    rw [h]
  | _ => simp [hbody] at h

theorem isMessage_of_isToolResult (h : isToolResult e = true) : e.isMessage = true := by
  unfold isToolResult at h
  unfold TreeEntry.isMessage
  cases hbody : e.body with
  | message role m => rfl
  | _ => simp [hbody] at h

/-- What stands between a call and its results, and the results, is no place to cut. -/
theorem isCutPoint_eq_false (h : isToolResult e = true ∨ getMessageFromEntry e = none) :
    isCutPoint e = false := by
  unfold isToolResult getMessageFromEntry at h
  unfold isCutPoint
  cases hbody : e.body with
  | message role m =>
    simp only [hbody, decide_eq_true_eq, reduceCtorEq, or_false] at h
    rw [h]
  | customMessage | branchSummary => simp [hbody] at h
  | compaction | settings => rfl

section Calls

variable {entries : List (TreeEntry M C H)} {a t : Nat}

theorem IsCallOf.not_isCutPoint (h : IsCallOf entries a t) {i : Nat} (hai : a < i) (hit : i ≤ t) :
    entries[i]?.any isCutPoint = false := by
  cases he : entries[i]? with
  | none => rfl
  | some e =>
    rw [any_some]
    apply isCutPoint_eq_false
    rcases lt_or_eq_of_le hit with hlt | rfl
    · exact h.between i hai hlt e he
    · have hresult := h.result
      rw [he, any_some] at hresult
      exact .inl hresult

theorem IsCallOf.unique (h : IsCallOf entries a t) {a' : Nat} (h' : IsCallOf entries a' t) :
    a = a' := by
  have hcut : ∀ {a}, IsCallOf entries a t → entries[a]?.any isCutPoint = true := by
    intro a h
    obtain ⟨e, he, hassistant⟩ := (any_eq_true _ _).mp h.assistant
    exact (any_eq_true _ _).mpr ⟨e, he, isCutPoint_of_isAssistantMessage hassistant⟩
  rcases lt_trichotomy a a' with hlt | rfl | hlt
  · exact absurd (hcut h') (by rw [h.not_isCutPoint hlt h'.before.le]; exact Bool.false_ne_true)
  · rfl
  · exact absurd (hcut h) (by rw [h'.not_isCutPoint hlt h.before.le]; exact Bool.false_ne_true)

end Calls

/-! ## The cut -/

variable {entries : List (TreeEntry M C H)}

theorem isCutPoint_of_mem {startIndex endIndex i : Nat}
    (h : i ∈ findValidCutPoints entries startIndex endIndex) : entries[i]?.any isCutPoint = true :=
  (mem_filter.mp h).2

/-- An entry that the walk back takes in. -/
def isTakenIn (e : TreeEntry M C H) : Bool := !e.isCompaction && !e.isMessage

theorem includeSettings_taken (entries : List (TreeEntry M C H)) {startIndex cut i : Nat}
    (hle : includeSettings entries startIndex cut ≤ i) (hlt : i < cut) :
    entries[i]?.any isTakenIn = true := by
  induction cut with
  | zero => exact absurd hlt (not_lt_zero i)
  | succ cut ih =>
    rw [includeSettings] at hle
    split_ifs at hle with hback
    · rcases lt_or_eq_of_le (le_of_lt_succ hlt) with hi | rfl
      · exact ih hle hi
      · exact hback.2
    · omega

/-- The walk back stops at the start, or after an entry it does not take in. -/
theorem includeSettings_stop (entries : List (TreeEntry M C H)) {startIndex cut : Nat}
    (hstart : startIndex < includeSettings entries startIndex cut) :
    entries[includeSettings entries startIndex cut - 1]?.any isTakenIn = false := by
  induction cut with
  | zero => exact absurd hstart (not_lt_zero _)
  | succ cut ih =>
    rw [includeSettings] at hstart ⊢
    split_ifs at hstart ⊢ with hback
    · exact ih hstart
    · rw [Nat.add_sub_cancel]
      rw [not_and, Bool.not_eq_true] at hback
      exact hback hstart

/-- What `findCutPoint` returns when there is a place to cut: the chosen place, moved back
over what the walk takes in. -/
structure IsCut (entries : List (TreeEntry M C H)) (startIndex endIndex chosen : Nat)
    (cut : CutPointResult) : Prop where
  mem : chosen ∈ findValidCutPoints entries startIndex endIndex
  firstKept : cut.firstKeptEntryIndex = includeSettings entries startIndex chosen
  turnStart : cut.turnStartIndex =
    if entries[cut.firstKeptEntryIndex]?.any isUserMessage then none
    else findTurnStartIndex entries startIndex cut.firstKeptEntryIndex
  split : cut.isSplitTurn =
    (!entries[cut.firstKeptEntryIndex]?.any isUserMessage && cut.turnStartIndex.isSome)

theorem findCutPoint_cases (estimateEntryTokens : TreeEntry M C H → Nat)
    (entries : List (TreeEntry M C H)) (startIndex endIndex keepRecentTokens : Nat) :
    (findValidCutPoints entries startIndex endIndex = [] ∧
      findCutPoint estimateEntryTokens entries startIndex endIndex keepRecentTokens =
        ⟨startIndex, none, false⟩) ∨ ∃ chosen, IsCut entries startIndex endIndex chosen
      (findCutPoint estimateEntryTokens entries startIndex endIndex keepRecentTokens) := by
  rw [findCutPoint]
  cases hpoints : findValidCutPoints entries startIndex endIndex with
  | nil => exact .inl ⟨rfl, rfl⟩
  | cons first rest =>
    refine .inr ⟨_, ?_, rfl, rfl, rfl⟩
    rw [hpoints]
    exact chooseCutPoint_mem ..

section Bounds

variable {entries : List (TreeEntry M C H)} {startIndex endIndex chosen : Nat}
  {cut : CutPointResult}

section
variable (h : IsCut entries startIndex endIndex chosen cut)
include h

theorem IsCut.bounds : startIndex ≤ cut.firstKeptEntryIndex ∧ cut.firstKeptEntryIndex ≤ chosen ∧
      chosen < endIndex := by
  have hchosen := mem_findValidCutPoints h.mem
  rw [h.firstKept]
  have hback := includeSettings_bounds entries hchosen.1
  exact ⟨hback.1, hback.2, hchosen.2⟩

theorem IsCut.turnStart_bounds {turn : Nat} (hturn : cut.turnStartIndex = some turn) :
    startIndex ≤ turn ∧ turn ≤ cut.firstKeptEntryIndex := by
  rw [h.turnStart] at hturn
  split_ifs at hturn
  exact findTurnStartIndex_bounds hturn

/-- No call has its result after the cut and itself before it. -/
theorem IsCut.keeps_call {a t : Nat} (hcall : IsCallOf entries a t)
    (ht : cut.firstKeptEntryIndex ≤ t) : cut.firstKeptEntryIndex ≤ a := by
  by_contra hlost
  rw [not_le] at hlost
  have hbounds := h.bounds
  rcases lt_or_ge t chosen with hlt | hge
  · -- the walk back takes in no message
    rw [h.firstKept] at ht
    obtain ⟨e, he, htaken⟩ := (any_eq_true _ _).mp (includeSettings_taken entries ht hlt)
    have hresult := hcall.result
    rw [he, any_some] at hresult
    rw [isTakenIn, isMessage_of_isToolResult hresult] at htaken
    simp at htaken
  · -- the chosen place stands between the call and the result
    have hno := hcall.not_isCutPoint (hlost.trans_le hbounds.2.1) hge
    rw [isCutPoint_of_mem h.mem] at hno
    exact Bool.noConfusion hno

end

end Bounds

/-- **A compaction keeps calls and results together.**  For all entries, bounds and
budgets and every estimate: if each tool result within the bounds has its assistant
message within them, then no tool result from the first kept entry on has it before
that entry, and a turn start found lies between the start and the first kept entry. -/
theorem findCutPoint_keeps_calls (estimateEntryTokens : TreeEntry M C H → Nat)
    (entries : List (TreeEntry M C H)) {startIndex endIndex : Nat} (keepRecentTokens : Nat)
    (hcalls : HasCalls entries startIndex endIndex) :
    let cut := findCutPoint estimateEntryTokens entries startIndex endIndex keepRecentTokens
    (∀ t, cut.firstKeptEntryIndex ≤ t → t < endIndex → entries[t]?.any isToolResult = true →
      (∃ a, IsCallOf entries a t) ∧ ∀ a, IsCallOf entries a t → cut.firstKeptEntryIndex ≤ a) ∧
    ∀ turn, cut.turnStartIndex = some turn →
      startIndex ≤ turn ∧ turn ≤ cut.firstKeptEntryIndex := by
  intro cut
  rcases findCutPoint_cases estimateEntryTokens entries startIndex endIndex keepRecentTokens with
    ⟨-, hcut⟩ | ⟨chosen, hcut⟩
  · have hcut : cut = ⟨startIndex, none, false⟩ := hcut
    rw [hcut]
    refine ⟨fun t hle hlt hresult => ?_, fun turn h => nomatch h⟩
    obtain ⟨a, ha, hcall⟩ := hcalls t hle hlt hresult
    exact ⟨⟨a, hcall⟩, fun a' hcall' => hcall.unique hcall' ▸ ha⟩
  · refine ⟨fun t hle hlt hresult => ?_, fun turn h => hcut.turnStart_bounds h⟩
    obtain ⟨a, -, hcall⟩ := hcalls t (hcut.bounds.1.trans hle) hlt hresult
    exact ⟨⟨a, hcall⟩, fun a' hcall' => hcut.keeps_call hcall' hle⟩

/-- A question, a call with two results and the settings between them. -/
def callEntries : List (TreeEntry Nat Nat Nat) :=
  [⟨js "q1", none, js "t1", .message .user 1⟩,
    ⟨js "a1", some (js "q1"), js "t2", .message .assistant 2⟩,
    ⟨js "r1", some (js "a1"), js "t3", .message .toolResult 3⟩,
    ⟨js "s", some (js "r1"), js "t4", .settings⟩,
    ⟨js "r2", some (js "s"), js "t5", .message .toolResult 4⟩]

theorem isCallOf_callEntries {t : Nat} (ht : t = 2 ∨ t = 4) : IsCallOf callEntries 1 t := by
  refine ⟨by omega, rfl, by rcases ht with rfl | rfl <;> rfl, fun i hi hit e he => ?_⟩
  obtain rfl | rfl : i = 2 ∨ i = 3 := by omega
  all_goals
    obtain rfl := some.inj he
    simp [isToolResult, getMessageFromEntry]

/-- With room for the last result only, the call is kept with it. -/
theorem findCutPoint_keeps_calls_results :
    (findCutPoint (fun _ => 1) callEntries 0 5 1).firstKeptEntryIndex ≤ 1 := by
  have hcalls : HasCalls callEntries 0 5 := by
    intro t _ ht hresult
    refine ⟨1, zero_le 1, isCallOf_callEntries ?_⟩
    obtain rfl | rfl | rfl | rfl | rfl : t = 0 ∨ t = 1 ∨ t = 2 ∨ t = 3 ∨ t = 4 := by omega
    all_goals simp [callEntries, isToolResult] at hresult ⊢
  have hkept := (findCutPoint_keeps_calls (fun _ => 1) callEntries 1 hcalls).1 4
  exact (hkept (by decide) (by decide) rfl).2 1 (isCallOf_callEntries (.inr rfl))

/-! ## Split turns -/

theorem findTurnStartIndex_startsTurn {startIndex i turn : Nat}
    (h : findTurnStartIndex entries startIndex i = some turn) :
    entries[turn]?.any startsTurn = true := by
  induction i with
  | zero =>
    rw [findTurnStartIndex] at h
    split_ifs at h with hstart
    obtain rfl := some.inj h
    exact hstart.2
  | succ i ih =>
    rw [findTurnStartIndex] at h
    split_ifs at h with hle hturn
    · obtain rfl := some.inj h
      exact hturn
    · exact ih h

theorem findTurnStartIndex_eq_none_iff {startIndex i : Nat} :
    findTurnStartIndex entries startIndex i = none ↔
      ∀ j, startIndex ≤ j → j ≤ i → entries[j]?.any startsTurn = false := by
  constructor
  · intro h
    induction i with
    | zero =>
      intro j hj hji
      obtain rfl : j = 0 := by omega
      obtain rfl : startIndex = 0 := by omega
      rw [findTurnStartIndex] at h
      split_ifs at h with hstart
      simpa using hstart
    | succ i ih =>
      intro j hj hji
      rw [findTurnStartIndex, if_pos (hj.trans hji)] at h
      split_ifs at h with hturn
      rcases lt_or_eq_of_le hji with hlt | rfl
      · exact ih h j hj (le_of_lt_succ hlt)
      · exact Bool.eq_false_iff.mpr hturn
  · intro h
    cases hfound : findTurnStartIndex entries startIndex i with
    | none => rfl
    | some turn =>
      have hbounds := findTurnStartIndex_bounds hfound
      have hturn := findTurnStartIndex_startsTurn hfound
      rw [h turn hbounds.1 hbounds.2] at hturn
      exact Bool.noConfusion hturn

theorem isSome_of_startsTurn (h : startsTurn e = true) : (getMessageFromEntry e).isSome = true := by
  unfold startsTurn at h
  unfold getMessageFromEntry
  cases hbody : e.body with
  | message | customMessage | branchSummary => rfl
  | compaction | settings => simp [hbody] at h

theorem isSome_of_isMessage (h : e.isMessage = true) : (getMessageFromEntry e).isSome = true := by
  unfold TreeEntry.isMessage at h
  unfold getMessageFromEntry
  cases hbody : e.body with
  | message => rfl
  | _ => simp [hbody] at h

theorem isCutPoint_of_startsTurn (h : startsTurn e = true) : isCutPoint e = true := by
  unfold startsTurn at h
  unfold isCutPoint
  cases hbody : e.body with
  | message role m => cases role <;> simp [hbody] at h ⊢
  | customMessage | branchSummary => rfl
  | compaction | settings => simp [hbody] at h

theorem startsTurn_of_isUserMessage (h : isUserMessage e = true) : startsTurn e = true := by
  unfold isUserMessage at h
  unfold startsTurn
  cases hbody : e.body with
  | message role m =>
    simp only [hbody] at h ⊢
    rw [h, Bool.true_or]
  | _ => simp [hbody] at h

/-- The first entry with a message, from the entry at `cut` on. -/
structure IsFirstContext (entries : List (TreeEntry M C H)) (cut k : Nat) : Prop where
  le : cut ≤ k
  message : entries[k]?.any (fun e => (getMessageFromEntry e).isSome) = true
  first : ∀ i, cut ≤ i → i < k → entries[i]?.any (fun e => (getMessageFromEntry e).isSome) = false

theorem any_eq_false_of_imp {p q : TreeEntry M C H → Bool} (hpq : ∀ e, p e = true → q e = true)
    {e : Option (TreeEntry M C H)} (h : e.any q = false) : e.any p = false := by
  cases e with
  | none => rfl
  | some e =>
    rw [any_some] at h ⊢
    exact Bool.eq_false_iff.mpr (fun hp => Bool.eq_false_iff.mp h (hpq e hp))

theorem IsFirstContext.not_startsTurn {cut k i : Nat}
    (h : IsFirstContext entries cut k) (hle : cut ≤ i) (hlt : i < k) :
    entries[i]?.any startsTurn = false :=
  any_eq_false_of_imp (fun _ => isSome_of_startsTurn) (h.first i hle hlt)

def preparedCut (estimateEntryTokens : TreeEntry M C H → Nat) (keepRecentTokens : Nat → Nat)
    (pathEntries : List (TreeEntry M C H)) : CutPointResult :=
  findCutPoint estimateEntryTokens pathEntries (boundaryStart pathEntries) pathEntries.length
    (keepRecentTokens
      ((pathEntries.drop (boundaryStart pathEntries)).map estimateEntryTokens).sum)

theorem prepareCompaction_turnPrefixMessages {estimateEntryTokens : TreeEntry M C H → Nat}
    {keepRecentTokens : Nat → Nat} {path : List (TreeEntry M C H)}
    {prep : CompactionPreparation M C H}
    (h : prepareCompaction estimateEntryTokens keepRecentTokens path = some prep) :
    prep.turnPrefixMessages =
      if (preparedCut estimateEntryTokens keepRecentTokens path).isSplitTurn then
        messagesBetween path
          ((preparedCut estimateEntryTokens keepRecentTokens path).turnStartIndex.getD 0)
          (preparedCut estimateEntryTokens keepRecentTokens path).firstKeptEntryIndex else [] := by
  rw [prepareCompaction] at h
  split_ifs at h with hlast
  dsimp only at h
  rw [← preparedCut] at h
  generalize preparedCut estimateEntryTokens keepRecentTokens path = cut at h ⊢
  split at h
  · exact absurd h (by simp)
  · split_ifs at h with hid hturn hempty hempty
    all_goals
      obtain rfl := some.inj h
      simp only [hturn]
      rfl

theorem not_isCompaction_of_boundaryStart_le {path : List (TreeEntry M C H)} {i : Nat}
    (hi : boundaryStart path ≤ i) (he : path[i]? = some e) : e.isCompaction = false := by
  rcases path_cases path with hnone | ⟨before, c, after, rfl, hc, hafter⟩
  · exact hnone e (mem_of_getElem? he)
  · rw [boundaryStart_of_split hc hafter] at hi
    obtain ⟨j, rfl⟩ := Nat.exists_eq_add_of_le hi
    apply hafter e
    rw [Nat.add_assoc, getElem?_append_right (Nat.le_add_right ..), Nat.add_sub_cancel_left,
      Nat.add_comm 1 j, getElem?_cons_succ] at he
    exact mem_of_getElem? he

theorem messagesBetween_self (entries : List (TreeEntry M C H)) (i : Nat) :
    messagesBetween entries i i = [] := by
  rw [messagesBetween, Nat.sub_self, take_zero]
  rfl

theorem messagesBetween_ne_nil {i j : Nat} (hij : i < j)
    (hturn : entries[i]?.any startsTurn = true) : messagesBetween entries i j ≠ [] := by
  obtain ⟨e, he, hstarts⟩ := (any_eq_true _ _).mp hturn
  obtain ⟨m, hm⟩ := isSome_iff_exists.mp (isSome_of_startsTurn hstarts)
  have hmem : e ∈ (entries.drop i).take (j - i) := by
    apply mem_of_getElem? (i := 0)
    rw [getElem?_take_of_lt (by omega), getElem?_drop, add_zero, he]
  exact ne_nil_of_mem (mem_filterMap.mpr ⟨e, hmem, hm⟩)

section SplitTurn

variable {path : List (TreeEntry M C H)} {chosen k : Nat} {cut : CutPointResult}

section
variable (h : IsCut path (boundaryStart path) path.length chosen cut)
include h

theorem IsCut.prefix_nil_of_startsTurn
    (hturn : path[cut.firstKeptEntryIndex]?.any startsTurn = true) :
    cut.isSplitTurn = false ∨ cut.turnStartIndex = some cut.firstKeptEntryIndex := by
  by_cases huser : path[cut.firstKeptEntryIndex]?.any isUserMessage = true
  · rw [h.split, huser]
    exact .inl rfl
  · right
    rw [h.turnStart, if_neg huser]
    have hle := h.bounds.1
    cases hi : cut.firstKeptEntryIndex with
    | zero =>
      rw [hi] at hturn hle
      rw [findTurnStartIndex, if_pos ⟨le_zero.mp hle, hturn⟩]
    | succ i =>
      rw [hi] at hturn hle
      rw [findTurnStartIndex, if_pos hle, if_pos hturn]

/-- The walk back stops at the boundary or after a message. -/
theorem IsCut.eq_or_isMessage : cut.firstKeptEntryIndex = boundaryStart path ∨
      path[cut.firstKeptEntryIndex - 1]?.any TreeEntry.isMessage = true := by
  have hbounds := h.bounds
  rcases eq_or_lt_of_le hbounds.1 with heq | hlt
  · exact .inl heq.symm
  · right
    have hstop : path[cut.firstKeptEntryIndex - 1]?.any isTakenIn = false := by
      rw [h.firstKept] at hlt ⊢
      exact includeSettings_stop path hlt
    obtain ⟨e, he⟩ : ∃ e, path[cut.firstKeptEntryIndex - 1]? = some e :=
      ⟨_, getElem?_eq_getElem (by omega)⟩
    have hcompaction := not_isCompaction_of_boundaryStart_le (by omega) he
    rw [he, any_some] at hstop ⊢
    rw [isTakenIn, hcompaction] at hstop
    simpa using hstop

theorem IsCut.turnStart_of_settings (hk : IsFirstContext path cut.firstKeptEntryIndex k)
    (hlt : cut.firstKeptEntryIndex < k) : cut.turnStartIndex =
        findTurnStartIndex path (boundaryStart path) cut.firstKeptEntryIndex ∧
      cut.isSplitTurn = cut.turnStartIndex.isSome := by
  have huser : path[cut.firstKeptEntryIndex]?.any isUserMessage = false :=
    any_eq_false_of_imp (fun _ => startsTurn_of_isUserMessage) (hk.not_startsTurn le_rfl hlt)
  constructor
  · rw [h.turnStart, huser, if_neg Bool.false_ne_true]
  · rw [h.split, huser, Bool.not_false, Bool.true_and]

end

end SplitTurn

/-- **A complete turn is handed on as a prefix when settings stand before the next
one.**  For every path, estimate and budget, if the first entry with a message from the
cut on starts a turn, then no turn prefix is summarized if and only if that entry
directly follows a message or the boundary, or no turn starts between the boundary and
it. -/
theorem turnPrefixMessages_eq_nil_iff {estimateEntryTokens : TreeEntry M C H → Nat}
    {keepRecentTokens : Nat → Nat} {path : List (TreeEntry M C H)}
    {prep : CompactionPreparation M C H}
    (hprep : prepareCompaction estimateEntryTokens keepRecentTokens path = some prep) {k : Nat}
    (hk : IsFirstContext path
      (preparedCut estimateEntryTokens keepRecentTokens path).firstKeptEntryIndex k)
    (hturn : path[k]?.any startsTurn = true) : prep.turnPrefixMessages = [] ↔
      k = boundaryStart path ∨ path[k - 1]?.any TreeEntry.isMessage = true ∨
        ∀ i, boundaryStart path ≤ i → i < k → path[i]?.any startsTurn = false := by
  rw [prepareCompaction_turnPrefixMessages hprep]
  have hcases := findCutPoint_cases estimateEntryTokens path (boundaryStart path) path.length
    (keepRecentTokens ((path.drop (boundaryStart path)).map estimateEntryTokens).sum)
  rw [← preparedCut] at hcases
  generalize preparedCut estimateEntryTokens keepRecentTokens path = cut at hk hcases ⊢
  rcases hcases with ⟨hpoints, rfl⟩ | ⟨chosen, hcut⟩
  · -- an entry that starts a turn is a place to cut
    obtain ⟨e, he, hstarts⟩ := (any_eq_true _ _).mp hturn
    have hmem : k ∈ findValidCutPoints path (boundaryStart path) path.length := by
      have hlt := (List.getElem?_eq_some_iff.mp he).1
      have hle : boundaryStart path ≤ k := hk.le
      refine List.mem_filter.mpr ⟨List.mem_range'_1.mpr (by omega), ?_⟩
      exact (any_eq_true _ _).mpr ⟨e, he, isCutPoint_of_startsTurn hstarts⟩
    rw [hpoints] at hmem
    exact absurd hmem not_mem_nil
  · have hstart := hcut.bounds.1
    rcases eq_or_lt_of_le hk.le with heq | hlt
    · -- the turn starts at the cut
      subst heq
      refine iff_of_true ?_ (hcut.eq_or_isMessage.imp_right .inl)
      rcases hcut.prefix_nil_of_startsTurn hturn with hsplit | hself
      · rw [hsplit, if_neg Bool.false_ne_true]
      · rw [hself, getD_some, messagesBetween_self, ite_self]
    · obtain ⟨hfound, hsplit⟩ := hcut.turnStart_of_settings hk hlt
      have hmessage : path[k - 1]?.any TreeEntry.isMessage = false :=
        any_eq_false_of_imp (fun _ => isSome_of_isMessage) (hk.first (k - 1) (by omega) (by omega))
      have hne : k ≠ boundaryStart path := by omega
      rw [hmessage, hsplit, hfound]
      simp only [hne, Bool.false_eq_true, false_or]
      constructor
      · intro hnil
        cases hturnStart : findTurnStartIndex path (boundaryStart path) cut.firstKeptEntryIndex with
        | none =>
          intro i hi hik
          rcases lt_or_ge cut.firstKeptEntryIndex i with hafter | hbefore
          · exact hk.not_startsTurn hafter.le hik
          · exact findTurnStartIndex_eq_none_iff.mp hturnStart i hi hbefore
        | some turn =>
          rw [hturnStart, isSome_some, if_pos rfl, getD_some] at hnil
          have hstarts := findTurnStartIndex_startsTurn hturnStart
          have hle := (findTurnStartIndex_bounds hturnStart).2
          rcases eq_or_lt_of_le hle with rfl | hbefore
          · rw [hk.not_startsTurn le_rfl hlt] at hstarts
            exact Bool.noConfusion hstarts
          · exact absurd hnil (messagesBetween_ne_nil hbefore hstarts)
      · intro hno
        rw [findTurnStartIndex_eq_none_iff.mpr fun i hi hic => hno i hi (hic.trans_lt hlt)]
        rfl

/-- Two questions, the model changed between them. -/
def modelChangePath : List (TreeEntry Nat Nat Nat) :=
  [⟨js "q1", none, js "t1", .message .user 1⟩,
    ⟨js "a1", some (js "q1"), js "t2", .message .assistant 2⟩,
    ⟨js "s", some (js "a1"), js "t3", .settings⟩,
    ⟨js "q2", some (js "s"), js "t4", .message .user 3⟩,
    ⟨js "a2", some (js "q2"), js "t5", .message .assistant 4⟩]

/-- Room for the last turn: its question directly follows the settings, and the whole
turn before is handed on as a prefix. -/
theorem turnPrefixMessages_modelChange : IsFirstContext modelChangePath
        (preparedCut (fun _ => 1) (fun _ => 2) modelChangePath).firstKeptEntryIndex 3 ∧
      modelChangePath[3]?.any startsTurn = true ∧
      ∃ prep, prepareCompaction (fun _ => 1) (fun _ => 2) modelChangePath = some prep ∧
        prep.messagesToSummarize = [] ∧ prep.turnPrefixMessages ≠ [] := by
  have hcut : (preparedCut (fun _ => 1) (fun _ => 2) modelChangePath).firstKeptEntryIndex = 2 := by
    decide
  refine ⟨⟨hcut.le.trans (by omega), rfl, fun i hi hlt => ?_⟩, rfl, _, rfl, rfl, ?_⟩
  · obtain rfl : i = 2 := by omega
    rfl
  · exact cons_ne_nil _ _

/-- Without the settings no prefix is handed on. -/
theorem turnPrefixMessages_eq_nil_iff_messages :
    ∃ prep, prepareCompaction (fun _ => 1) (fun _ => 2) (modelChangePath.eraseIdx 2) =
      some prep ∧ prep.turnPrefixMessages = [] := by
  have hcut : (preparedCut (fun _ => 1) (fun _ => 2)
      (modelChangePath.eraseIdx 2)).firstKeptEntryIndex = 2 := by
    decide
  have hfirst : IsFirstContext (modelChangePath.eraseIdx 2) (preparedCut (fun _ => 1) (fun _ => 2)
      (modelChangePath.eraseIdx 2)).firstKeptEntryIndex 2 :=
    ⟨hcut.le, rfl, fun i hi hlt => by omega⟩
  exact ⟨_, rfl, (turnPrefixMessages_eq_nil_iff rfl hfirst rfl).mpr (.inr (.inl rfl))⟩

end GajaeCode
