import GajaeCode.JsonValue
import Mathlib.Data.Set.Function

/-! # The append-only context log

`AppendOnlyContextManager` of `packages/agent/src/append-only-context.ts` keeps a log of the
messages sent to a provider.  `syncMessages` remembers a hash of every message: a history that
only grew is appended to the log, any other one replaces it.  The messages a manager is seeded
with stay in front of the histories that do not bring them along.

Messages are values here, the same when they have the same JSON text, which is what is hashed
and what a provider sees.  The stable prefix of prompt and tools is left out.
-/
namespace GajaeCode
open JsString List

section Clone
variable {N : Type} [JsNumber N]

/-- The key whose assignment sets the prototype and makes no field. -/
def protoKey : JsString := js "__proto__"

mutual
/-- `cloneJsonValue`, on values without functions and `toJSON` methods. -/
def cloneJsonValue : JsValue N → JsValue N
  | .number n => if JsNumber.isFinite n then .number n else .null
  | .array items => .array (cloneItems items)
  | .object fields => .object (cloneFields fields)
  | v => v
def cloneItems : List (JsValue N) → List (JsValue N)
  | [] => []
  | v :: vs => (cloneJsonValue v).orNull :: cloneItems vs
def cloneFields : JsFields N → JsFields N
  | [] => []
  | (k, v) :: fs =>
    if (cloneJsonValue v).isUndefined = true ∨ k = protoKey then cloneFields fs
    else (k, cloneJsonValue v) :: cloneFields fs
end

end Clone

/-! ## The manager -/

/-- The log of `AppendOnlyContextManager` with what it remembers of the last sync. -/
structure AppendOnlyContext (N H : Type) where
  log : List (JsValue N)
  lastSyncCount : Nat
  syncedHashes : List H
  seededPrefixCount : Nat

namespace AppendOnlyContext
variable {N H : Type} [JsNumber N] [DecidableEq H] (hashSource : JsString → H)

/-- `hashString32`, the hash where the runtime has none of its own. -/
def hashString32 (value : JsString) : UInt32 :=
  value.foldl (fun hash unit => (hash <<< 5) - hash + unit.toUInt32) 0

def create : AppendOnlyContext N H := ⟨[], 0, [], 0⟩

def hashMessage (message : JsValue N) : H := hashSource message.jsonText

def rangeHashesEqual (a b : List (JsValue N)) (count : Nat) : Bool :=
  (List.range count).all fun i =>
    hashMessage hashSource (a.getD i .undefined) = hashMessage hashSource (b.getD i .undefined)

variable (c : AppendOnlyContext N H)

def prefixChanged (messages : List (JsValue N)) (count : Nat) : Bool :=
  if c.syncedHashes.length < count then false
  else (List.range count).any fun i =>
    some (hashMessage hashSource (messages.getD i .undefined)) ≠ c.syncedHashes[i]?

def rebaseToBaseline (messages : List (JsValue N)) (seededPrefixCount : Nat) :
    AppendOnlyContext N H :=
  ⟨messages, messages.length, messages.map (hashMessage hashSource), seededPrefixCount⟩

/-- The log cleared and the sync forgotten; a seed stays known. -/
def clearSynced : AppendOnlyContext N H :=
  { c with log := [], lastSyncCount := 0, syncedHashes := [] }

/-- The messages behind those of the last sync go to the log. -/
def appendDelta (messages : List (JsValue N)) :
    AppendOnlyContext N H :=
  { c with
    log := c.log ++ messages.drop c.lastSyncCount
    lastSyncCount := messages.length
    syncedHashes := messages.map (hashMessage hashSource) }

/-- The history with the seed in front, if it does not bring it along. -/
def messagesToSync (messages : List (JsValue N)) : List (JsValue N) :=
  let includesSeedPrefix := 0 < c.seededPrefixCount ∧ c.seededPrefixCount ≤ messages.length ∧
    rangeHashesEqual hashSource messages c.log c.seededPrefixCount = true
  if 0 < c.seededPrefixCount ∧ ¬ includesSeedPrefix then
    c.log.take c.seededPrefixCount ++ messages
  else messages

/-- A history shorter than the last one replaces it. -/
def syncGrown (messages : List (JsValue N)) : AppendOnlyContext N H :=
  if messages.length < c.lastSyncCount then
    if 0 < c.seededPrefixCount then rebaseToBaseline hashSource messages c.seededPrefixCount
    else c.clearSynced.appendDelta hashSource messages
  else c.appendDelta hashSource messages

def syncMessages (normalizedMessages : List (JsValue N)) :
    AppendOnlyContext N H :=
  let messages := c.messagesToSync hashSource normalizedMessages
  if 0 < c.lastSyncCount ∧ c.lastSyncCount ≤ messages.length ∧
      c.prefixChanged hashSource messages c.lastSyncCount = true then
    if 0 < c.seededPrefixCount then rebaseToBaseline hashSource messages c.seededPrefixCount
    else c.clearSynced.syncGrown hashSource messages
  else c.syncGrown hashSource messages

/-- `seedNormalizedMessages`: refused for a log that holds messages, unless it is reset. -/
def seedNormalizedMessages (messages : List (JsValue N))
    (reset : Bool) : Except JsString (AppendOnlyContext N H) :=
  if 0 < c.log.length ∧ reset ≠ true then
    .error (js ("AppendOnlyContextManager.seedNormalizedMessages() cannot seed a non-empty log " ++
      "without reset"))
  else
    let clonedMessages := cloneItems messages
    .ok ⟨clonedMessages, clonedMessages.length, clonedMessages.map (hashMessage hashSource),
      clonedMessages.length⟩

def invalidateForModelChange (_ : AppendOnlyContext N H) : AppendOnlyContext N H := create

def resetSyncCursor (_ : AppendOnlyContext N H) : AppendOnlyContext N H := create

def reset (_ : AppendOnlyContext N H) : AppendOnlyContext N H := create

inductive Op (N : Type) where
  | syncMessages (messages : List (JsValue N))
  | seed (messages : List (JsValue N)) (reset : Bool)
  | invalidateForModelChange
  | resetSyncCursor
  | reset

/-- An operation; one that throws leaves the manager as it is. -/
def step : Op N → AppendOnlyContext N H
  | .syncMessages messages => c.syncMessages hashSource messages
  | .seed messages reset =>
    match c.seedNormalizedMessages hashSource messages reset with
    | .ok c' => c'
    | .error _ => c
  | .invalidateForModelChange => c.invalidateForModelChange
  | .resetSyncCursor => c.resetSyncCursor
  | .reset => c.reset

def run (ops : List (Op N)) : AppendOnlyContext N H :=
  ops.foldl (step hashSource) c

end AppendOnlyContext

/-- What the log is to hold: a seed, and the messages a provider is sent. -/
structure Conversation (N : Type) where
  seed : List (JsValue N)
  messages : List (JsValue N)

namespace Conversation
variable {N : Type} [JsNumber N]

/-- The texts of messages, by which they are told apart. -/
def texts (messages : List (JsValue N)) : List JsString := messages.map JsValue.jsonText

/-- A history, the seed in front unless it begins with it. -/
def sync (a : Conversation N) (history : List (JsValue N)) : Conversation N :=
  { a with messages := if texts a.seed <+: texts history then history else a.seed ++ history }

open AppendOnlyContext in
def step (a : Conversation N) : Op N → Conversation N
  | .syncMessages history => a.sync history
  | .seed messages reset =>
    if a.messages = [] ∨ reset = true then ⟨cloneItems messages, cloneItems messages⟩ else a
  | .invalidateForModelChange | .resetSyncCursor | .reset => ⟨[], []⟩

def run (a : Conversation N) (ops : List (AppendOnlyContext.Op N)) : Conversation N :=
  ops.foldl step a

@[simp] theorem length_texts (messages : List (JsValue N)) :
    (texts messages).length = messages.length := length_map _

@[simp] theorem texts_append (messages messages' : List (JsValue N)) :
    texts (messages ++ messages') = texts messages ++ texts messages' := map_append

theorem texts_take (messages : List (JsValue N)) (n : Nat) :
    texts (messages.take n) = (texts messages).take n := map_take

theorem texts_drop (messages : List (JsValue N)) (n : Nat) :
    texts (messages.drop n) = (texts messages).drop n := map_drop

theorem seed_prefix_sync (a : Conversation N) (history : List (JsValue N)) :
    texts a.seed <+: texts (a.sync history).messages := by
  rw [sync]
  split_ifs with hfront
  · exact hfront
  · rw [texts_append]
    exact prefix_append _ _

end Conversation

namespace AppendOnlyContext
open Conversation
variable {N H : Type} [JsNumber N] [DecidableEq H] {hashSource : JsString → H}
variable {T : Set JsString}
variable {c : AppendOnlyContext N H} {history : List (JsValue N)} {a : Conversation N}

section
omit [DecidableEq H]

theorem map_hashMessage (messages : List (JsValue N)) :
    messages.map (hashMessage hashSource) = (texts messages).map hashSource := by
  rw [texts, map_map]
  rfl

theorem hashMessage_inj (hinj : Set.InjOn hashSource T) {u v : JsValue N} (hu : u.jsonText ∈ T)
    (hv : v.jsonText ∈ T) :
    hashMessage hashSource u = hashMessage hashSource v ↔ u.jsonText = v.jsonText :=
  ⟨fun h => hinj hu hv h, fun h => congrArg hashSource h⟩

end

section
variable {messages : List (JsValue N)} {i : Nat} (hi : i < messages.length)
include hi

theorem texts_getElem? : (texts messages)[i]? = some (messages.getD i .undefined).jsonText := by
  rw [texts, getElem?_map, getD_eq_getElem?_getD, getElem?_eq_getElem hi]
  rfl

theorem mem_texts_getD : (messages.getD i .undefined).jsonText ∈ texts messages :=
  mem_of_getElem? (texts_getElem? hi)

end

theorem rangeHashesEqual_iff (hinj : Set.InjOn hashSource T) {a b : List (JsValue N)} {count : Nat}
    (ha : ∀ t ∈ texts a, t ∈ T) (hb : ∀ t ∈ texts b, t ∈ T) (hca : count ≤ a.length)
    (hcb : count ≤ b.length) :
    rangeHashesEqual hashSource a b count = true ↔ (texts a).take count = (texts b).take count := by
  have hat : ∀ i < count, (hashMessage hashSource (a.getD i .undefined) =
      hashMessage hashSource (b.getD i .undefined) ↔ (texts a)[i]? = (texts b)[i]?) := by
    intro i hi
    have hia := Nat.lt_of_lt_of_le hi hca
    have hib := Nat.lt_of_lt_of_le hi hcb
    rw [hashMessage_inj hinj (ha _ (mem_texts_getD hia)) (hb _ (mem_texts_getD hib)),
      texts_getElem? hia, texts_getElem? hib, Option.some_inj]
  rw [rangeHashesEqual, all_eq_true]
  constructor
  · intro hall
    apply ext_getElem?
    intro i
    rw [getElem?_take, getElem?_take]
    split_ifs with hi
    · exact (hat i hi).mp (by simpa using hall i (mem_range.mpr hi))
    · rfl
  · intro heq i hi
    rw [mem_range] at hi
    have h := congrArg (·[i]?) heq
    simp only [getElem?_take, if_pos hi] at h
    simpa using (hat i hi).mpr h

theorem prefixChanged_iff (hinj : Set.InjOn hashSource T)
    (hhashes : c.syncedHashes = c.log.map (hashMessage hashSource)) {messages : List (JsValue N)}
    (hlog : ∀ t ∈ texts c.log, t ∈ T) (hmessages : ∀ t ∈ texts messages, t ∈ T)
    (hlength : c.log.length ≤ messages.length) :
    c.prefixChanged hashSource messages c.log.length = true ↔
      (texts messages).take c.log.length ≠ texts c.log := by
  have hequal := rangeHashesEqual_iff hinj hmessages hlog hlength (Nat.le_refl _)
  rw [← length_texts c.log, take_length, length_texts] at hequal
  rw [ne_eq, ← hequal, prefixChanged, hhashes, length_map, if_neg (Nat.lt_irrefl _),
    rangeHashesEqual, any_eq_true, all_eq_true, not_forall]
  refine exists_congr fun i => ?_
  rw [Classical.not_imp]
  refine and_congr_right fun hi => ?_
  have hlt := mem_range.mp hi
  have hat : c.log.getD i .undefined = c.log[i] := by
    rw [getD_eq_getElem?_getD, getElem?_eq_getElem hlt]
    rfl
  rw [getElem?_map, getElem?_eq_getElem hlt, hat]
  simp

/-- The manager holds these messages, and remembers them. -/
structure Holds (hashSource : JsString → H) (c : AppendOnlyContext N H)
    (messages : List (JsValue N)) : Prop where
  texts : texts c.log = texts messages
  count : c.lastSyncCount = messages.length
  hashes : c.syncedHashes = messages.map (hashMessage hashSource)

structure Refines (hashSource : JsString → H) (c : AppendOnlyContext N H) (a : Conversation N) :
    Prop where
  holds : c.Holds hashSource a.messages
  seedCount : c.seededPrefixCount = a.seed.length
  seed_prefix : Conversation.texts a.seed <+: Conversation.texts a.messages

omit [DecidableEq H] in
theorem refines_create : (create : AppendOnlyContext N H).Refines hashSource ⟨[], []⟩ :=
  ⟨⟨rfl, rfl, rfl⟩, rfl, prefix_rfl⟩

theorem texts_messagesToSync (hinj : Set.InjOn hashSource T) (h : c.Refines hashSource a)
    (hlog : ∀ t ∈ texts c.log, t ∈ T) (hhistory : ∀ t ∈ texts history, t ∈ T) :
    texts (c.messagesToSync hashSource history) = texts (a.sync history).messages := by
  have hseedLog : texts a.seed <+: texts c.log := h.holds.texts ▸ h.seed_prefix
  have hseed : (texts c.log).take c.seededPrefixCount = texts a.seed := by
    rw [h.seedCount, ← length_texts a.seed]
    exact (prefix_iff_eq_take.mp hseedLog).symm
  have hfits : c.seededPrefixCount ≤ c.log.length := by
    rw [h.seedCount, ← length_texts a.seed, ← length_texts c.log]
    exact hseedLog.length_le
  have hfront : c.seededPrefixCount ≤ history.length ∧
      rangeHashesEqual hashSource history c.log c.seededPrefixCount = true ↔
      texts a.seed <+: texts history := by
    constructor
    · rintro ⟨hlong, hequal⟩
      rw [rangeHashesEqual_iff hinj hhistory hlog hlong hfits, hseed] at hequal
      exact hequal ▸ List.take_prefix _ _
    · intro hprefix
      have hlong : c.seededPrefixCount ≤ history.length := by
        rw [h.seedCount, ← length_texts a.seed, ← length_texts history]
        exact hprefix.length_le
      refine ⟨hlong, (rangeHashesEqual_iff hinj hhistory hlog hlong hfits).mpr ?_⟩
      rw [hseed, h.seedCount, ← length_texts a.seed]
      exact (prefix_iff_eq_take.mp hprefix).symm
  simp only [messagesToSync, hfront, sync]
  by_cases hnone : a.seed = []
  · -- nothing was seeded
    have hzero : ¬ 0 < c.seededPrefixCount := by
      rw [h.seedCount, hnone]
      exact Nat.lt_irrefl 0
    have hprefix : texts a.seed <+: texts history := by
      rw [hnone]
      exact List.nil_prefix
    rw [if_neg (fun hcond => hzero hcond.1), if_pos hprefix]
  · have hpos : 0 < c.seededPrefixCount := by
      rw [h.seedCount]
      exact length_pos_iff.mpr hnone
    by_cases hprefix : texts a.seed <+: texts history
    · rw [if_neg (fun hcond => hcond.2 ⟨hpos, hprefix⟩), if_pos hprefix]
    · rw [if_pos ⟨hpos, fun hcond => hprefix hcond.2⟩, if_neg hprefix, texts_append, texts_append,
        texts_take, hseed]

omit [DecidableEq H] in
theorem holds_clearSynced (c : AppendOnlyContext N H) (messages : List (JsValue N)) :
    (c.clearSynced.appendDelta hashSource messages).Holds hashSource messages := ⟨rfl, rfl, rfl⟩

/-- **A sync** installs the messages it is to sync. -/
theorem holds_sync (hinj : Set.InjOn hashSource T) {old : List (JsValue N)}
    (h : c.Holds hashSource old) (hlog : ∀ t ∈ texts c.log, t ∈ T)
    (hsync : ∀ t ∈ texts (c.messagesToSync hashSource history), t ∈ T) :
    (c.syncMessages hashSource history).Holds hashSource (c.messagesToSync hashSource history) ∧
      (c.syncMessages hashSource history).seededPrefixCount = c.seededPrefixCount := by
  have hcount : c.lastSyncCount = c.log.length := by
    rw [h.count, ← length_texts old, ← h.texts, length_texts]
  have hhashes : c.syncedHashes = c.log.map (hashMessage hashSource) := by
    rw [h.hashes, map_hashMessage, map_hashMessage, h.texts]
  simp only [syncMessages, hcount]
  generalize c.messagesToSync hashSource history = messages at hsync ⊢
  split_ifs with hchanged hseeded
  · exact ⟨⟨rfl, rfl, rfl⟩, rfl⟩
  · -- the log is cleared, so no message is missing from it
    have hgrown : ¬ messages.length < c.clearSynced.lastSyncCount := Nat.not_lt_zero _
    rw [syncGrown, if_neg hgrown]
    exact ⟨holds_clearSynced c messages, rfl⟩
  · rw [syncGrown, hcount]
    split_ifs with hshort hseeded
    · exact ⟨⟨rfl, rfl, rfl⟩, rfl⟩
    · exact ⟨holds_clearSynced c messages, rfl⟩
    · -- the history grew: what the log holds is its front
      have hfront : (texts messages).take c.log.length = texts c.log := by
        by_cases hempty : c.log = []
        · rw [hempty]
          rfl
        · by_contra hne
          exact hchanged ⟨length_pos_iff.mpr hempty, by omega,
            (prefixChanged_iff hinj hhashes hlog hsync (by omega)).mpr hne⟩
      refine ⟨⟨?_, rfl, rfl⟩, rfl⟩
      rw [appendDelta, hcount, texts_append, texts_drop, ← hfront]
      exact take_append_drop _ _

def Op.texts : Op N → List JsString
  | .syncMessages messages => Conversation.texts messages
  | .seed messages _ => Conversation.texts (cloneItems messages)
  | .invalidateForModelChange | .resetSyncCursor | .reset => []

/-- The texts of a conversation are those its operations brought. -/
theorem texts_step (op : Op N) (ha : ∀ t ∈ texts a.messages, t ∈ T)
    (hseed : texts a.seed <+: texts a.messages) (hop : ∀ t ∈ op.texts, t ∈ T) :
    ∀ t ∈ texts (a.step op).messages, t ∈ T := by
  cases op with
  | syncMessages history =>
    simp only [Conversation.step, sync]
    split_ifs
    · exact hop
    · rw [texts_append, forall_mem_append]
      exact ⟨fun t ht => ha t (hseed.subset ht), hop⟩
  | seed messages reset =>
    simp only [Conversation.step]
    split_ifs
    · exact hop
    · exact ha
  | invalidateForModelChange | resetSyncCursor | reset => exact fun t ht => absurd ht not_mem_nil

omit [DecidableEq H] in
theorem Holds.congr {messages messages' : List (JsValue N)} (h : c.Holds hashSource messages)
    (htexts : Conversation.texts messages = Conversation.texts messages') :
    c.Holds hashSource messages' := by
  refine ⟨h.texts.trans htexts, ?_, ?_⟩
  · rw [h.count, ← length_texts, htexts, length_texts]
  · rw [h.hashes, map_hashMessage, map_hashMessage, htexts]

/-- **A sync** refines that of the conversation. -/
theorem Refines.sync (hinj : Set.InjOn hashSource T) (h : c.Refines hashSource a)
    (ha : ∀ t ∈ texts a.messages, t ∈ T) (hhistory : ∀ t ∈ texts history, t ∈ T) :
    (c.syncMessages hashSource history).Refines hashSource (a.sync history) := by
  have hlog : ∀ t ∈ texts c.log, t ∈ T := h.holds.texts ▸ ha
  have hmessages := texts_messagesToSync hinj h hlog hhistory
  have hsync : ∀ t ∈ texts (c.messagesToSync hashSource history), t ∈ T :=
    hmessages ▸ texts_step (.syncMessages history) ha h.seed_prefix hhistory
  obtain ⟨hholds, hcount⟩ := holds_sync hinj h.holds hlog hsync
  exact ⟨hholds.congr hmessages, hcount.trans h.seedCount, a.seed_prefix_sync history⟩

/-- **An operation** refines that on the conversation. -/
theorem Refines.step (hinj : Set.InjOn hashSource T) {c : AppendOnlyContext N H}
    {a : Conversation N} (h : c.Refines hashSource a) {op : Op N}
    (ha : ∀ t ∈ texts a.messages, t ∈ T) (hop : ∀ t ∈ op.texts, t ∈ T) :
    (c.step hashSource op).Refines hashSource (a.step op) := by
  cases op with
  | syncMessages history => exact h.sync hinj ha hop
  | seed messages reset =>
    have hlength : c.log.length = a.messages.length := by
      rw [← length_texts c.log, h.holds.texts, length_texts]
    have hrefused : (0 < c.log.length ∧ reset ≠ true) ↔ ¬ (a.messages = [] ∨ reset = true) := by
      rw [hlength, length_pos_iff, not_or]
    simp only [AppendOnlyContext.step, Conversation.step, seedNormalizedMessages, hrefused]
    by_cases hseeds : a.messages = [] ∨ reset = true
    · rw [if_neg (not_not.mpr hseeds), if_pos hseeds]
      exact ⟨⟨rfl, rfl, rfl⟩, rfl, prefix_rfl⟩
    · rw [if_pos hseeds, if_neg hseeds]
      exact h
  | invalidateForModelChange | resetSyncCursor | reset => exact refines_create

/-- **A run** refines that of the conversation. -/
theorem Refines.run (hinj : Set.InjOn hashSource T) (h : c.Refines hashSource a) {ops : List (Op N)}
    (ha : ∀ t ∈ texts a.messages, t ∈ T) (hops : ∀ op ∈ ops, ∀ t ∈ op.texts, t ∈ T) :
    (c.run hashSource ops).Refines hashSource (a.run ops) ∧
      ∀ t ∈ texts (a.run ops).messages, t ∈ T := by
  induction ops generalizing c a with
  | nil => exact ⟨h, ha⟩
  | cons op ops ih =>
    rw [forall_mem_cons] at hops
    exact ih (h.step hinj ha hops.1) (texts_step op ha h.seed_prefix hops.1) hops.2

/-- **The log tracks the conversation.**  For every run of a new manager whose messages'
texts are hashed without collision: after a sync the log is the history that was synced if
that begins with the seed, and otherwise the seed and that history. -/
theorem log_after_sync (hinj : Set.InjOn hashSource T) {ops : List (Op N)}
    (hops : ∀ op ∈ ops, ∀ t ∈ op.texts, t ∈ T) {history : List (JsValue N)}
    (hhistory : ∀ t ∈ texts history, t ∈ T) :
    texts ((create.run hashSource ops).syncMessages hashSource history).log =
      if texts (Conversation.run ⟨[], []⟩ ops).seed <+: texts history then texts history
      else texts (Conversation.run ⟨[], []⟩ ops).seed ++ texts history := by
  obtain ⟨hrun, htexts⟩ :=
    refines_create.run hinj (fun t ht => absurd ht not_mem_nil) hops
  rw [(hrun.sync hinj htexts hhistory).holds.texts, Conversation.sync]
  split_ifs
  · rfl
  · exact texts_append _ _

/-- A seed `s`, the history `s`, `a` and then `b` without the seed: the log is `s`, `b`. -/
theorem log_after_sync_seeded : texts ((create.run hashString32 [.seed [.string (js "s")] false,
        .syncMessages [.string (js "s"), .string (js "a")]]).syncMessages hashString32
          [.string (js "b")] : AppendOnlyContext Nat UInt32).log = [js "\"s\"", js "\"b\""] := by
  have hinj : Set.InjOn hashString32 {t | t ∈ [js "\"s\"", js "\"a\"", js "\"b\""]} := by
    have hdistinct : ∀ s ∈ [js "\"s\"", js "\"a\"", js "\"b\""],
        ∀ t ∈ [js "\"s\"", js "\"a\"", js "\"b\""], hashString32 s = hashString32 t → s = t := by
      decide
    exact fun s hs t ht heq => hdistinct s hs t ht heq
  refine (log_after_sync hinj ?_ ?_).trans ?_
  · simp only [forall_mem_cons, Set.mem_ofPred_eq]
    decide
  · decide
  · decide

end AppendOnlyContext
end GajaeCode
