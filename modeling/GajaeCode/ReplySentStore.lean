import GajaeCode.InsertionMap
import GajaeCode.JsString
import GajaeCode.Runs

/-! # The index of sent messages

`packages/coding-agent/src/sdk/bus/reply-sent-store.ts`: a record copies the index, sets its
entry, writes the copy to a temporary file, renames that over the index file, and then replaces
the index in memory by its copy.  It waits between any two of these steps, and other records may
take theirs meanwhile.

Nothing holds a second record back while one is under way, so its copy lacks the entry of the
first (`Divided`), and one of the two entries is gone when both have ended.
-/
namespace GajaeCode
open JsString List

namespace ReplySentIndex

def MAX_ENTRIES : Nat := 1000

def MAX_TEXT_LENGTH : Nat := 2000

structure StoredEntry where
  text : JsString
  ts : Int
  deriving DecidableEq

/-- The entries, as they are in memory and as the index file lists them. -/
abbrev Entries := InsertionMap JsString StoredEntry

/-- Chat and message as a template writes them. -/
def keyFor (chatId messageId : JsString) : JsString := chatId ++ js ":" ++ messageId

def evictToCap (entries : Entries) : Entries :=
  if entries.entries.length ≤ MAX_ENTRIES then entries
  else
    let oldestFirst := entries.entries.mergeSort fun a b => a.2.ts ≤ b.2.ts
    let overflow := entries.entries.length - MAX_ENTRIES
    ((oldestFirst.take overflow).map Prod.fst).foldl InsertionMap.erase entries

def cappedText (text : JsString) : JsString :=
  if MAX_TEXT_LENGTH < text.length then text.take MAX_TEXT_LENGTH else text

/-- What a record waits for: a step of `#persist`, or its own turn after the rename. -/
inductive RecordStage where
  | mkdir | writeFile | chmod | rename | renamed | done
  deriving DecidableEq

/-- A record under way, with its copy of the index. -/
structure RecordCall where
  chatId : JsString
  messageId : JsString
  text : JsString
  next : Entries
  stage : RecordStage

def RecordCall.key (call : RecordCall) : JsString := keyFor call.chatId call.messageId

end ReplySentIndex

open ReplySentIndex

/-- The store and its file, with the records in the order in which they were called. -/
structure ReplySentStore where
  entries : Entries
  file : Option Entries
  calls : List RecordCall

namespace ReplySentStore

/-- The part of a record before it waits for the first time. -/
def record (s : ReplySentStore) (chatId messageId text : JsString) (now : Int) : ReplySentStore :=
  let text := cappedText text
  let next := evictToCap (s.entries.set (keyFor chatId messageId) ⟨text, now⟩)
  { s with calls := s.calls ++ [⟨chatId, messageId, text, next, .mkdir⟩] }

def setStage (s : ReplySentStore) (k : Nat) (call : RecordCall) (stage : RecordStage) :
    ReplySentStore :=
  { s with calls := s.calls.set k { call with stage } }

/-- What a record waits for comes to pass, and it goes on to the next thing.  Until the rename
only its temporary file changes, which no other record uses. -/
def advance (s : ReplySentStore) (k : Nat) : ReplySentStore :=
  match s.calls[k]? with
  | none => s
  | some call =>
    match call.stage with
    | .mkdir => s.setStage k call .writeFile
    | .writeFile => s.setStage k call .chmod
    | .chmod => s.setStage k call .rename
    | .rename => { s.setStage k call .renamed with file := some call.next }
    | .renamed => { s.setStage k call .done with entries := call.next }
    | .done => s

def lookup (s : ReplySentStore) (chatId messageId : JsString) : Option JsString :=
  (s.entries.get (keyFor chatId messageId)).map StoredEntry.text

end ReplySentStore

namespace ReplySentIndex
variable {s : ReplySentStore} {call : RecordCall} {before : List RecordCall} {n : Nat}
    {coming : List JsString}
variable {k : Nat} {key : JsString}

inductive Operation where
  | record (chatId messageId text : JsString) (now : Int)
  | advance (k : Nat)

def step (s : ReplySentStore) : Operation → ReplySentStore
  | .record chatId messageId text now => s.record chatId messageId text now
  | .advance k => s.advance k

def Completed (s : ReplySentStore) : Prop := ∀ call ∈ s.calls, call.stage = .done

/-- The text of the latest record of a message. -/
def recorded (calls : List RecordCall) (key : JsString) : Option JsString :=
  (calls.map fun call => (call.key, call.text)).reverse.lookup key

/-- What was recorded is found, and the file lists the same entries. -/
structure Kept (s : ReplySentStore) : Prop where
  found : ∀ chatId messageId text, recorded s.calls (keyFor chatId messageId) = some text →
    s.lookup chatId messageId = some text
  persisted : s.calls ≠ [] → s.file = some s.entries

/-- A record is called while no other one is under way. -/
def Alone (s : ReplySentStore) : Operation → Prop
  | .record .. => Completed s
  | .advance _ => True

instance (s : ReplySentStore) : ∀ op, Decidable (Alone s op)
  | .record .. => inferInstanceAs (Decidable (∀ call ∈ s.calls, call.stage = .done))
  | .advance _ => .isTrue trivial

/-- The keys of the messages that are recorded. -/
def messages : List Operation → List JsString
  | [] => []
  | .record chatId messageId _ _ :: ops => keyFor chatId messageId :: messages ops
  | .advance _ :: ops => messages ops

theorem evictToCap_eq {entries : Entries} (h : entries.keys.length ≤ MAX_ENTRIES) :
    evictToCap entries = entries := by
  rw [InsertionMap.keys, length_map] at h
  exact if_pos h

theorem mem_keys_evictToCap {entries : Entries} (h : key ∈ (evictToCap entries).keys) :
    key ∈ entries.keys := by
  unfold evictToCap at h
  split_ifs at h
  · exact h
  · obtain ⟨⟨_, entry⟩, hmem, rfl⟩ := mem_map.mp h
    have hget := InsertionMap.mem_entries_iff.mp hmem
    rw [InsertionMap.get_foldl_erase] at hget
    split_ifs at hget
    exact InsertionMap.mem_keys_of_get hget

theorem length_keys_set (entries : Entries) (key : JsString) (entry : StoredEntry) :
    (entries.set key entry).keys.length ≤ entries.keys.length + 1 := by
  rw [InsertionMap.keys_set, addFirst]
  split_ifs
  · exact Nat.le_succ _
  · rw [length_append, length_singleton]

/-- A copy has the latest text of every recorded message. -/
def Holds (calls : List RecordCall) (entries : Entries) : Prop :=
  ∀ key text, recorded calls key = some text →
    (entries.get key).map StoredEntry.text = some text

theorem recorded_append (calls : List RecordCall) (call : RecordCall) (key : JsString) :
    recorded (calls ++ [call]) key =
      if key = call.key then some call.text else recorded calls key := by
  rw [recorded, map_append, map_singleton, reverse_append, reverse_singleton,
    singleton_append, lookup_cons]
  split_ifs with hkey
  · rw [hkey, beq_self_eq_true]
  · rw [beq_eq_false_iff_ne.mpr hkey, recorded]

theorem Holds.set {calls : List RecordCall} {entries : Entries} (h : Holds calls entries)
    (now : Int) : Holds (calls ++ [call]) (entries.set call.key ⟨call.text, now⟩) := by
  intro key text hrecorded
  rw [recorded_append] at hrecorded
  rw [InsertionMap.get_set]
  split_ifs at hrecorded ⊢ with hkey
  · exact hrecorded
  · exact h key text hrecorded

/-- What does not depend on the stage stays when it changes. -/
theorem map_set_stage {α : Type} (f : RecordCall → α)
    (hf : ∀ call stage, f { call with stage } = f call) {calls : List RecordCall}
    (hk : calls[k]? = some call) (stage : RecordStage) :
    (calls.set k { call with stage }).map f = calls.map f := by
  rw [map_set]
  refine ext_getElem? fun i => ?_
  rw [getElem?_set]
  split_ifs with hi hlength
  · subst hi
    rw [getElem?_map, hk, hf]
    rfl
  · subst hi
    rw [getElem?_eq_none (by simpa using hlength)]
  · rfl

theorem recorded_set {calls : List RecordCall} (hk : calls[k]? = some call) (stage : RecordStage)
    (key : JsString) : recorded (calls.set k { call with stage }) key = recorded calls key := by
  rw [recorded, map_set_stage (fun call => (call.key, call.text)) (fun _ _ => rfl) hk, recorded]

/-! ## One record after the other -/

/-- All records have ended, and nothing is lost; `n` entries were there before them. -/
structure Settled (n : Nat) (s : ReplySentStore) : Prop where
  completed : Completed s
  holds : Holds s.calls s.entries
  persisted : s.calls ≠ [] → s.file = some s.entries
  size : s.entries.keys.length ≤ n + s.calls.length

/-- One record is under way, after others that have ended. -/
structure Recording (n : Nat) (s : ReplySentStore) (before : List RecordCall)
    (call : RecordCall) : Prop where
  calls : s.calls = before ++ [call]
  completed : ∀ other ∈ before, other.stage = .done
  not_done : call.stage ≠ .done
  holds : Holds s.calls call.next
  renamed : call.stage = .renamed → s.file = some call.next
  size : call.next.keys.length ≤ n + s.calls.length

/-- No two records are under way. -/
def Serial (n : Nat) (s : ReplySentStore) : Prop :=
  Settled n s ∨ ∃ before call, Recording n s before call

theorem Settled.record (h : Settled n s) (hcap : n + s.calls.length < MAX_ENTRIES)
    (chatId messageId text : JsString) (now : Int) :
    ∃ call, Recording n (s.record chatId messageId text now) s.calls call := by
  have hlength : (s.entries.set (keyFor chatId messageId) ⟨cappedText text, now⟩).keys.length ≤
      n + (s.calls.length + 1) :=
    (length_keys_set ..).trans (Nat.succ_le_succ h.size)
  refine ⟨_, rfl, h.completed, nofun, ?_, nofun, ?_⟩
  · dsimp only [ReplySentStore.record]
    rw [evictToCap_eq (hlength.trans hcap)]
    exact h.holds.set now
  · dsimp only [ReplySentStore.record]
    rw [evictToCap_eq (hlength.trans hcap), length_append, length_singleton]
    exact hlength

theorem Recording.setStage (h : Recording n s before call) (stage : RecordStage)
    (hdone : stage ≠ .done) (file : Option Entries)
    (hfile : stage = .renamed → file = some call.next) :
    Serial n { s.setStage before.length call stage with file } := by
  have hcalls : s.calls.set before.length { call with stage } =
      before ++ [{ call with stage }] := by
    rw [h.calls, set_append_right _ _ (le_refl _), Nat.sub_self, set_cons_zero]
  have hcall : s.calls[before.length]? = some call := by
    rw [h.calls, getElem?_concat_length]
  refine .inr ⟨before, { call with stage }, hcalls, h.completed, hdone,
    fun key text hrecorded => ?_, hfile, ?_⟩
  · exact h.holds key text ((recorded_set hcall stage key).symm.trans hrecorded)
  · show call.next.keys.length ≤ n + (s.calls.set _ _).length
    rw [length_set]
    exact h.size

theorem Recording.finish (h : Recording n s before call) (hrenamed : call.stage = .renamed) :
    Settled n { s.setStage before.length call .done with entries := call.next } := by
  have hcalls : s.calls.set before.length { call with stage := .done } =
      before ++ [{ call with stage := .done }] := by
    rw [h.calls, set_append_right _ _ (le_refl _), Nat.sub_self, set_cons_zero]
  have hcall : s.calls[before.length]? = some call := by
    rw [h.calls, getElem?_concat_length]
  refine ⟨fun other hother => ?_, fun key text hrecorded => ?_, fun _ => h.renamed hrenamed, ?_⟩
  · change other ∈ s.calls.set _ _ at hother
    rw [hcalls] at hother
    rcases mem_append.mp hother with hmem | hmem
    · exact h.completed other hmem
    · rw [mem_singleton.mp hmem]
  · exact h.holds key text ((recorded_set hcall .done key).symm.trans hrecorded)
  · show call.next.keys.length ≤ n + (s.calls.set _ _).length
    rw [length_set]
    exact h.size

theorem Settled.advance (h : Settled n s) (k : Nat) : s.advance k = s := by
  unfold ReplySentStore.advance
  cases hk : s.calls[k]? with
  | none => rfl
  | some call =>
    dsimp only
    rw [h.completed call (mem_of_getElem? hk)]

theorem Recording.advance (h : Recording n s before call) (k : Nat) : Serial n (s.advance k) := by
  have hserial : Serial n s := .inr ⟨before, call, h⟩
  unfold ReplySentStore.advance
  cases hk : s.calls[k]? with
  | none => exact hserial
  | some other =>
    dsimp only
    by_cases hlast : k = before.length
    · subst hlast
      rw [h.calls, getElem?_concat_length] at hk
      obtain rfl := some.inj hk
      cases hstage : call.stage with
      | mkdir => exact h.setStage .writeFile nofun s.file nofun
      | writeFile => exact h.setStage .chmod nofun s.file nofun
      | chmod => exact h.setStage .rename nofun s.file nofun
      | rename => exact h.setStage .renamed nofun (some call.next) fun _ => rfl
      | renamed => exact .inl (h.finish hstage)
      | done => exact hserial
    · have hmem : other ∈ before := by
        rw [h.calls] at hk
        have hlt : k < (before ++ [call]).length := (List.getElem?_eq_some_iff.mp hk).1
        rw [List.length_append, List.length_singleton] at hlt
        rw [List.getElem?_append_left (by omega)] at hk
        exact mem_of_getElem? hk
      rw [h.completed other hmem]
      exact hserial

variable {op : Operation}

/-- A record that is called alone keeps the store serial. -/
theorem Serial.next (h : Serial n s)
    (hcap : n + s.calls.length + (messages [op]).length ≤ MAX_ENTRIES) (halone : Alone s op) :
    Serial n (step s op) := by
  cases op with
  | advance k =>
    rcases h with hsettled | ⟨before, call, hrecording⟩
    · rw [step, hsettled.advance k]
      exact .inl hsettled
    · exact hrecording.advance k
  | record chatId messageId text now =>
    rcases h with hsettled | ⟨before, call, hrecording⟩
    · exact .inr ⟨_, hsettled.record hcap chatId messageId text now⟩
    · have hmem : call ∈ s.calls := hrecording.calls ▸ mem_concat_self
      exact absurd (halone call hmem) hrecording.not_done

theorem length_calls_step (s : ReplySentStore) (op : Operation) :
    (step s op).calls.length = s.calls.length + (messages [op]).length := by
  cases op with
  | record => exact length_append
  | advance k =>
    change (s.advance k).calls.length = s.calls.length
    unfold ReplySentStore.advance
    split
    · rfl
    · split
      all_goals first | rfl | exact length_set

theorem Serial.run (h : Serial n s) {ops : List Operation}
    (hcap : n + s.calls.length + (messages ops).length ≤ MAX_ENTRIES)
    (halone : Runs.Meets step Alone s ops) : Serial n (Runs.run step s ops) := by
  induction ops generalizing s with
  | nil => exact h
  | cons op ops ih =>
    have hmessages : (messages (op :: ops)).length =
        (messages [op]).length + (messages ops).length := by
      cases op <;> simp [messages]; omega
    refine ih (h.next (by omega) halone.1) ?_ halone.2
    rw [length_calls_step]
    omega

theorem Serial.kept (h : Serial n s) (hcompleted : Completed s) : Kept s := by
  rcases h with hsettled | ⟨before, call, hrecording⟩
  · exact ⟨fun _ _ text hrecorded => hsettled.holds _ text hrecorded, hsettled.persisted⟩
  · have hmem : call ∈ s.calls := hrecording.calls ▸ mem_concat_self
    exact absurd (hcompleted call hmem) hrecording.not_done

/-! ## Two records at once -/

def Reachable (s : ReplySentStore) (entries : Entries) : Prop :=
  entries = s.entries ∨ ∃ call ∈ s.calls, call.stage ≠ .done ∧ entries = call.next

/-- Two recorded messages that no index has both of. -/
structure Divided (key key' : JsString) (s : ReplySentStore) : Prop where
  first : ∃ call ∈ s.calls, call.key = key
  second : ∃ call ∈ s.calls, call.key = key'
  apart : ∀ entries, Reachable s entries → key ∈ entries.keys → key' ∉ entries.keys

theorem advance_cases (s : ReplySentStore) (k : Nat) :
    s.advance k = s ∨ ∃ call stage, s.calls[k]? = some call ∧ call.stage ≠ .done ∧
      (s.advance k).calls = s.calls.set k { call with stage } ∧ ((s.advance k).entries = s.entries ∨
        stage = .done ∧ (s.advance k).entries = call.next) := by
  unfold ReplySentStore.advance
  cases hk : s.calls[k]? with
  | none => exact .inl rfl
  | some call =>
    dsimp only
    cases hstage : call.stage with
    | done => exact .inl rfl
    | renamed => exact .inr ⟨call, .done, rfl, hstage ▸ nofun, rfl, .inr ⟨rfl, rfl⟩⟩
    | mkdir => exact .inr ⟨call, .writeFile, rfl, hstage ▸ nofun, rfl, .inl rfl⟩
    | writeFile => exact .inr ⟨call, .chmod, rfl, hstage ▸ nofun, rfl, .inl rfl⟩
    | chmod => exact .inr ⟨call, .rename, rfl, hstage ▸ nofun, rfl, .inl rfl⟩
    | rename => exact .inr ⟨call, .renamed, rfl, hstage ▸ nofun, rfl, .inl rfl⟩

theorem keys_advance (s : ReplySentStore) (k : Nat) :
    (s.advance k).calls.map RecordCall.key = s.calls.map RecordCall.key := by
  rcases advance_cases s k with hsame | ⟨call, stage, hk, -, hcalls, -⟩
  · rw [hsame]
  · rw [hcalls, map_set_stage RecordCall.key (fun _ _ => rfl) hk]

theorem under_way_of_advance (h : call ∈ (s.advance k).calls) (hdone : call.stage ≠ .done) :
    ∃ before ∈ s.calls, before.stage ≠ .done ∧ before.key = call.key ∧ before.next = call.next := by
  rcases advance_cases s k with hsame | ⟨moved, stage, hk, hmoved, hcalls, -⟩
  · exact ⟨call, hsame ▸ h, hdone, rfl, rfl⟩
  · rw [hcalls] at h
    rcases mem_or_eq_of_mem_set h with hmem | rfl
    · exact ⟨call, hmem, hdone, rfl, rfl⟩
    · exact ⟨moved, mem_of_getElem? hk, hmoved, rfl, rfl⟩

/-- The indexes after a step of a record were there before. -/
theorem reachable_of_advance {entries : Entries} (h : Reachable (s.advance k) entries) :
    Reachable s entries := by
  rcases h with rfl | ⟨call, hmem, hdone, rfl⟩
  · rcases advance_cases s k with hsame | ⟨moved, stage, hk, hmoved, -, hentries | ⟨-, hentries⟩⟩
    · exact .inl (by rw [hsame])
    · exact .inl hentries
    · exact .inr ⟨moved, mem_of_getElem? hk, hmoved, hentries⟩
  · obtain ⟨before, hbefore, hstage, -, hnext⟩ := under_way_of_advance hmem hdone
    exact .inr ⟨before, hbefore, hstage, hnext.symm⟩

theorem reachable_of_record {chatId messageId text : JsString} {now : Int} {entries : Entries}
    (h : Reachable (s.record chatId messageId text now) entries) : Reachable s entries ∨
      ∀ key ∈ entries.keys, key ∈ s.entries.keys ∨ key = keyFor chatId messageId := by
  rcases h with rfl | ⟨call, hmem, hdone, rfl⟩
  · exact .inl (.inl rfl)
  · rcases mem_append.mp hmem with hold | hnew
    · exact .inl (.inr ⟨call, hold, hdone, rfl⟩)
    · refine .inr fun key hkey => ?_
      rw [mem_singleton.mp hnew] at hkey
      have hset := mem_keys_evictToCap hkey
      rwa [InsertionMap.keys_set, mem_addFirst] at hset

/-- The messages that are recorded are different ones, new to every index, and an index has
the message of a record under way only if the record made it. -/
structure Apart (s : ReplySentStore) (coming : List JsString) : Prop where
  nodup : (s.calls.map RecordCall.key ++ coming).Nodup
  fresh : ∀ entries, Reachable s entries → ∀ key ∈ coming, key ∉ entries.keys
  unfinished : ∀ call ∈ s.calls, call.stage ≠ .done → call.key ∉ s.entries.keys
  own : ∀ call ∈ s.calls, ∀ other ∈ s.calls, call.stage ≠ .done → other.stage ≠ .done →
    call.key ∈ other.next.keys → call.key = other.key

theorem Apart.advance (h : Apart s coming) (k : Nat) : Apart (s.advance k) coming := by
  have hnodup : ((s.advance k).calls.map RecordCall.key ++ coming).Nodup := by
    rw [keys_advance]
    exact h.nodup
  refine ⟨hnodup, fun entries hentries => h.fresh entries (reachable_of_advance hentries),
    fun call hcall hdone hkey => ?_, fun call hcall other hother hdone hdone' hkey => ?_⟩
  · obtain ⟨before, hbefore, hstage, heq, -⟩ := under_way_of_advance hcall hdone
    rcases advance_cases s k with
      hsame | ⟨moved, stage, hk, hmoved, hcalls, hentries | ⟨rfl, hentries⟩⟩
    · rw [hsame] at hcall hkey
      exact h.unfinished call hcall hdone hkey
    · rw [hentries, ← heq] at hkey
      exact h.unfinished before hbefore hstage hkey
    · -- the record that has ended is another one
      rw [hentries, ← heq] at hkey
      have hmovedKey := h.own before hbefore moved (mem_of_getElem? hk) hstage hmoved hkey
      have hended : { moved with stage := .done } ∈ (s.advance k).calls := by
        rw [hcalls]
        exact List.mem_set (List.getElem?_eq_some_iff.mp hk).1 _
      have hsame := List.inj_on_of_nodup_map (List.nodup_append.mp hnodup).1 hcall hended
        (heq.symm.trans hmovedKey)
      exact hdone (by rw [hsame])
  · obtain ⟨before, hbefore, hstage, heq, -⟩ := under_way_of_advance hcall hdone
    obtain ⟨before', hbefore', hstage', heq', hnext'⟩ := under_way_of_advance hother hdone'
    rw [← heq, ← hnext'] at hkey
    rw [← heq, ← heq']
    exact h.own before hbefore before' hbefore' hstage hstage' hkey

section
variable {chatId messageId : JsString} (h : Apart s (keyFor chatId messageId :: coming))
    (text : JsString) (now : Int)
include h text now

theorem Apart.record : Apart (s.record chatId messageId text now) coming := by
  have hnodup :
      ((s.record chatId messageId text now).calls.map RecordCall.key ++ coming).Nodup := by
    rw [ReplySentStore.record, map_append, append_assoc]
    exact h.nodup
  have hnew : keyFor chatId messageId ∉ coming :=
    (nodup_cons.mp (nodup_append.mp h.nodup).2.1).1
  have hkeys : ∀ key ∈ (evictToCap (s.entries.set (keyFor chatId messageId)
      ⟨cappedText text, now⟩)).keys, key ∈ s.entries.keys ∨ key = keyFor chatId messageId := by
    intro key hkey
    have hset := mem_keys_evictToCap hkey
    rwa [InsertionMap.keys_set, mem_addFirst] at hset
  refine ⟨hnodup, fun entries hentries key hkey => ?_, fun call hcall hdone => ?_,
    fun call hcall other hother hdone hdone' hkey => ?_⟩
  · rcases reachable_of_record hentries with hold | hnext
    · exact h.fresh entries hold key (mem_cons_of_mem _ hkey)
    · intro hmem
      rcases hnext key hmem with hmem | rfl
      · exact h.fresh _ (.inl rfl) key (mem_cons_of_mem _ hkey) hmem
      · exact hnew hkey
  · rcases mem_append.mp hcall with hold | hlast
    · exact h.unfinished call hold hdone
    · rw [mem_singleton.mp hlast]
      exact h.fresh _ (.inl rfl) _ mem_cons_self
  · rcases mem_append.mp hcall with hold | hlast
    · rcases mem_append.mp hother with hold' | hlast'
      · exact h.own call hold other hold' hdone hdone' hkey
      · rw [mem_singleton.mp hlast'] at hkey ⊢
        rcases hkeys _ hkey with hmem | heq
        · exact absurd hmem (h.unfinished call hold hdone)
        · exact heq
    · rcases mem_append.mp hother with hold' | hlast'
      · rw [mem_singleton.mp hlast] at hkey
        exact absurd hkey
          (h.fresh _ (.inr ⟨other, hold', hdone', rfl⟩) _ mem_cons_self)
      · rw [mem_singleton.mp hlast, mem_singleton.mp hlast']

/-- The copy of a record that is called while another one is under way lacks its entry. -/
theorem Apart.divided (hcall : call ∈ s.calls) (hdone : call.stage ≠ .done) :
    Divided call.key (keyFor chatId messageId) (s.record chatId messageId text now) := by
  refine ⟨⟨call, mem_append_left _ hcall, rfl⟩, ⟨_, mem_concat_self, rfl⟩,
    fun entries hentries hkey hkey' => ?_⟩
  rcases reachable_of_record hentries with hold | hnext
  · exact h.fresh entries hold _ mem_cons_self hkey'
  · rcases hnext _ hkey with hmem | heq
    · exact h.unfinished call hcall hdone hmem
    · have hne := (nodup_append.mp h.nodup).2.2 _ (mem_map_of_mem hcall) _ mem_cons_self
      exact hne heq

end

theorem Divided.next {key' : JsString} (h : Divided key key' s) (hkey : key ∉ messages [op])
    (hkey' : key' ∉ messages [op]) : Divided key key' (step s op) := by
  cases op with
  | advance k =>
    have hmem : ∀ key, (∃ call ∈ s.calls, call.key = key) →
        ∃ call ∈ (s.advance k).calls, call.key = key := by
      intro key hcall
      rw [← mem_map (f := RecordCall.key), keys_advance, mem_map]
      exact hcall
    exact ⟨hmem key h.first, hmem key' h.second,
      fun entries hentries => h.apart entries (reachable_of_advance hentries)⟩
  | record chatId messageId text now =>
    obtain ⟨⟨call, hcall, hfirst⟩, ⟨call', hcall', hsecond⟩, hapart⟩ := h
    refine ⟨⟨call, mem_append_left _ hcall, hfirst⟩,
      ⟨call', mem_append_left _ hcall', hsecond⟩, fun entries hentries hmem hmem' => ?_⟩
    rcases reachable_of_record hentries with hold | hnext
    · exact hapart entries hold hmem hmem'
    · refine hapart s.entries (.inl rfl) ?_ ?_
      · exact (hnext key hmem).resolve_right fun heq => hkey (heq ▸ mem_cons_self)
      · exact (hnext key' hmem').resolve_right fun heq => hkey' (heq ▸ mem_cons_self)

theorem messages_cons (op : Operation) (ops : List Operation) :
    messages (op :: ops) = messages [op] ++ messages ops := by
  cases op <;> rfl

theorem Divided.run {key' : JsString} (h : Divided key key' s) {ops : List Operation}
    (hkey : key ∉ messages ops) (hkey' : key' ∉ messages ops) :
    Divided key key' (Runs.run step s ops) := by
  induction ops generalizing s with
  | nil => exact h
  | cons op ops ih =>
    rw [messages_cons, mem_append, not_or] at hkey hkey'
    exact ih (h.next hkey.1 hkey'.1) hkey.2 hkey'.2

/-- Once a record is called while another one is under way, two messages stay apart. -/
theorem divided_of_overlap {ops : List Operation} (h : Apart s (messages ops))
    (hoverlap : ¬ Runs.Meets step Alone s ops) :
    ∃ key key', Divided key key' (Runs.run step s ops) := by
  induction ops generalizing s with
  | nil => exact absurd trivial hoverlap
  | cons op ops ih =>
    cases op with
    | advance k => exact ih (h.advance k) fun hmeets => hoverlap ⟨trivial, hmeets⟩
    | record chatId messageId text now =>
      by_cases hcompleted : Completed s
      · exact ih (h.record text now) fun hmeets => hoverlap ⟨hcompleted, hmeets⟩
      · unfold Completed at hcompleted
        push Not at hcompleted
        obtain ⟨call, hcall, hdone⟩ := hcompleted
        refine ⟨_, _, (h.divided text now hcall hdone).run ?_ ?_⟩
        · intro hmem
          exact (nodup_append.mp h.nodup).2.2 _ (mem_map_of_mem hcall) _
            (mem_cons_of_mem _ hmem) rfl
        · exact (nodup_cons.mp (nodup_append.mp h.nodup).2.1).1

theorem recorded_isSome {calls : List RecordCall} (h : call ∈ calls) :
    ∃ text, recorded calls call.key = some text := by
  induction calls using reverseRecOn with
  | nil => cases h
  | append_singleton calls last ih =>
    rw [recorded_append]
    split_ifs with hkey
    · exact ⟨_, rfl⟩
    · rcases mem_append.mp h with hmem | hmem
      · exact ih hmem
      · exact absurd (congrArg RecordCall.key (mem_singleton.mp hmem)) hkey

theorem Kept.mem_keys (h : Kept s) (hcall : call ∈ s.calls) : call.key ∈ s.entries.keys := by
  obtain ⟨text, htext⟩ := recorded_isSome hcall
  have hfound := h.found call.chatId call.messageId text htext
  obtain ⟨entry, hentry, -⟩ := Option.map_eq_some_iff.mp hfound
  exact InsertionMap.mem_keys_of_get hentry

/-- **What is recorded is kept, in memory and in the file, if no record is called while another
one is under way**; and of different messages that are new it is kept only then. -/
theorem kept_iff_alone (entries : Entries) (file : Option Entries) (ops : List Operation)
    (hcap : entries.keys.length + (messages ops).length ≤ MAX_ENTRIES)
    (hcompleted : Completed (Runs.run step ⟨entries, file, []⟩ ops)) :
    (Runs.Meets step Alone ⟨entries, file, []⟩ ops → Kept (Runs.run step ⟨entries, file, []⟩ ops)) ∧
    ((messages ops).Nodup → (∀ key ∈ messages ops, key ∉ entries.keys) →
      Kept (Runs.run step ⟨entries, file, []⟩ ops) →
        Runs.Meets step Alone ⟨entries, file, []⟩ ops) := by
  refine ⟨fun halone => ?_, fun hnodup hnew hkept => ?_⟩
  · have hsettled : Settled entries.keys.length ⟨entries, file, []⟩ :=
      ⟨fun _ hcall => (nomatch hcall), fun _ _ hrecorded => (nomatch hrecorded),
        fun hnil => absurd rfl hnil, le_refl _⟩
    exact (Serial.run (.inl hsettled) hcap halone).kept hcompleted
  · by_contra hoverlap
    have hapart : Apart ⟨entries, file, []⟩ (messages ops) := by
      refine ⟨hnodup, fun other hother key hkey => ?_, fun _ hcall => (nomatch hcall),
        fun _ hcall => (nomatch hcall)⟩
      rcases hother with rfl | ⟨_, hcall, -⟩
      · exact hnew key hkey
      · cases hcall
    obtain ⟨key, key', ⟨call, hcall, rfl⟩, ⟨call', hcall', rfl⟩, hdivided⟩ :=
      divided_of_overlap hapart hoverlap
    exact hdivided _ (.inl rfl) (hkept.mem_keys hcall) (hkept.mem_keys hcall')

def recordAndEnd (k : Nat) (messageId text : JsString) (now : Int) : List Operation :=
  .record (js "7") messageId text now :: List.replicate 5 (.advance k)

theorem kept_one_after_the_other : Kept (Runs.run step ⟨.empty, none, []⟩
      (recordAndEnd 0 (js "1") (js "a") 0 ++ recordAndEnd 1 (js "2") (js "b") 1)) :=
  (kept_iff_alone .empty none _ (by decide) (by unfold Completed; decide)).1 (by decide)

/-- Two records are called, and then each of them ends. -/
def overlapping : List Operation :=
  .record (js "7") (js "1") (js "a") 0 :: .record (js "7") (js "2") (js "b") 1 ::
    (List.replicate 5 (.advance 0) ++ List.replicate 5 (.advance 1))

theorem overlapping_loses_first : Completed (Runs.run step ⟨.empty, none, []⟩ overlapping) ∧
      ¬ Kept (Runs.run step ⟨.empty, none, []⟩ overlapping) := by
  refine ⟨by unfold Completed; decide, fun hkept => ?_⟩
  have hfound := hkept.found (js "7") (js "1") (js "a") (by decide)
  exact absurd hfound (by decide)

end ReplySentIndex
end GajaeCode
