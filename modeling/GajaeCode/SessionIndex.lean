import Mathlib.Algebra.Group.Int.Defs
import GajaeCode.JsString
import GajaeCode.InsertionMap

/-! # The session index and its snapshots

`compactEvents`, `isValidSnapshot` and the readers of
`packages/coding-agent/src/sdk/broker/session-index.ts`.  The index is a list of numbered
events.  A snapshot compacts it: sessions that have ended and whose process is gone are
left out, and so are heartbeats followed by a later one of their session.  Readers fold
heartbeats over what the session's earlier events say, so they must not notice.

The checksum (SHA-256 of the event's JSON) and the test for a live process are
parameters; `T` is the type of clock and file times, which are only carried along.
-/
namespace GajaeCode
open JsString List Bool

inductive SessionIndexEventType where
  | hostRegistered | hostHeartbeat | hostUnregistered | lifecycleStarted | lifecycleTerminal
  | sessionClosed | recordReconciled
  deriving DecidableEq

def SessionIndexEventType.isTerminal (t : SessionIndexEventType) : Bool :=
  t = .hostUnregistered || t = .sessionClosed

structure SessionLocator where
  repo : JsString
  stateRoot : JsString
  deriving DecidableEq

/-- `Omit<SessionIndexEvent, "checksum">`. -/
structure UnsignedEvent (T : Type) where
  version : Nat
  indexSeq : Int
  type : SessionIndexEventType
  sessionId : JsString
  locator : SessionLocator
  endpointGeneration : Int
  pid : Int
  endpointMtimeMs : Option T
  lifecycleRequestId : Option JsString
  terminalUncertain : Option Bool
  ts : T
  deriving DecidableEq

structure SessionIndexEvent (T : Type) extends UnsignedEvent T where
  checksum : JsString
  deriving DecidableEq

/-- What `listSessions` shows of a session. -/
structure IndexedSession (T : Type) where
  sessionId : JsString
  locator : SessionLocator
  endpointGeneration : Int
  pid : Int
  endpointMtimeMs : Option T
  lifecycleRequestId : Option JsString
  terminalUncertain : Bool
  indexSeq : Int
  live : Bool
  deriving DecidableEq

variable {T : Type}

def SessionIndexEvent.isHeartbeat (e : SessionIndexEvent T) : Bool := e.type = .hostHeartbeat

/-- `Number.isSafeInteger`, of an integer. -/
def isSafeInteger (n : Int) : Bool := -(2 ^ 53) < n && n < 2 ^ 53

section Checksum
variable (sessionIndexChecksum : UnsignedEvent T → JsString)

/-- The loop of `isValidSnapshot`: the number of the last event, if all are acceptable. -/
def lastValidSeq (previous : Int) : List (SessionIndexEvent T) → Option Int
  | [] => some previous
  | e :: events =>
      if !isSafeInteger e.indexSeq then none
      else if e.indexSeq ≤ previous then none
      else if e.checksum ≠ sessionIndexChecksum e.toUnsignedEvent then none
      else lastValidSeq e.indexSeq events

def isValidSnapshot (indexSeq : Int) (events : List (SessionIndexEvent T)) : Bool :=
  if !isSafeInteger indexSeq || indexSeq < 0 then false
  else if events.length = 0 then indexSeq = 0
  else lastValidSeq sessionIndexChecksum 0 events = some indexSeq

end Checksum

section Alive
variable (alive : Int → Bool)

def latestBySession (events : List (SessionIndexEvent T)) :
    InsertionMap JsString (SessionIndexEvent T) :=
  InsertionMap.empty.setAll (fun e => e.sessionId) (fun _ e => e) events

/-- The sessions that have ended and whose process is gone. -/
def deadTerminal (events : List (SessionIndexEvent T)) : List JsString :=
  ((latestBySession events).entries.filter
    (fun (_, latest) => latest.type.isTerminal && !alive latest.pid)).map Prod.fst

/-- The number of the last heartbeat of every other session. -/
def latestHeartbeatSeq (events : List (SessionIndexEvent T)) : InsertionMap JsString Int :=
  InsertionMap.empty.setAll (fun e : SessionIndexEvent T => e.sessionId) (fun _ e => e.indexSeq)
    (events.filter (fun e => e.isHeartbeat && decide (e.sessionId ∉ deadTerminal alive events)))

/-- The event stays, the anchor of the numbering apart. -/
def staysCompacted (events : List (SessionIndexEvent T)) (e : SessionIndexEvent T) : Bool :=
  if e.sessionId ∈ deadTerminal alive events then false
  else if e.isHeartbeat ∧ (latestHeartbeatSeq alive events).get e.sessionId ≠ some e.indexSeq then
    false
  else true

def compactEvents (events : List (SessionIndexEvent T)) : List (SessionIndexEvent T) :=
  match events.getLast? with
  | none => events
  | some last =>
      events.filter (fun e => e.indexSeq = last.indexSeq || staysCompacted alive events e)

/-- `SessionIndex`, in memory. -/
structure SessionIndex (T : Type) where
  events : List (SessionIndexEvent T)
  warnings : List JsString
  deriving DecidableEq

/-- What `listSessions` returns. -/
structure SessionList (T : Type) where
  indexSeq : Int
  sessions : List (IndexedSession T)
  warnings : List JsString
  deriving DecidableEq

/-- An event over what the session showed before: a heartbeat leaves where it lives and
the request that started it as they were. -/
def overPrevious (previous : Option (SessionIndexEvent T)) (e : SessionIndexEvent T) :
    SessionIndexEvent T :=
  match previous with
  | none => e
  | some p =>
      if e.isHeartbeat then
        { e with
          locator := p.locator
          endpointMtimeMs := p.endpointMtimeMs
          lifecycleRequestId := p.lifecycleRequestId }
      else e

def indexedSession (e : SessionIndexEvent T) : IndexedSession T where
  sessionId := e.sessionId
  locator := e.locator
  endpointGeneration := e.endpointGeneration
  pid := e.pid
  endpointMtimeMs := e.endpointMtimeMs
  lifecycleRequestId := e.lifecycleRequestId
  terminalUncertain := e.type = .lifecycleTerminal || e.terminalUncertain = some true
  indexSeq := e.indexSeq
  live := alive e.pid

namespace SessionIndex

variable (index : SessionIndex T)

def indexSeq : Int :=
  match index.events.getLast? with
  | none => 0
  | some last => last.indexSeq

/-- The map `latest` of `listSessions`. -/
def latest : InsertionMap JsString (SessionIndexEvent T) :=
  InsertionMap.empty.setAll (fun e => e.sessionId) overPrevious index.events

def listSessions : SessionList T where
  indexSeq := index.indexSeq
  sessions :=
    (index.latest.values.filter (fun e => !e.type.isTerminal)).map (indexedSession alive)
  warnings := index.warnings

/-- `hostUnregisteredAfter`: the number and, if it was asked for, the request. -/
def hostUnregisteredAfter (registration : IndexedSession T) : Option (Int × Option JsString) :=
  let found := index.events.reverse.find? fun item =>
    item.type = .hostUnregistered ∧ registration.indexSeq < item.indexSeq ∧
      item.sessionId = registration.sessionId ∧
      item.endpointGeneration = registration.endpointGeneration ∧
      item.pid = registration.pid ∧
      (registration.lifecycleRequestId = none ∨
        item.lifecycleRequestId = registration.lifecycleRequestId)
  found.map fun e =>
    (e.indexSeq, registration.lifecycleRequestId.filter (fun request => !request.isEmpty))

def findHostRegistration (sessionId : JsString)
    (endpointGeneration pid : Int) (lifecycleRequestId : Option JsString) :
    Option (IndexedSession T) :=
  let found := index.events.reverse.find? fun item =>
    item.type = .hostRegistered ∧ item.sessionId = sessionId ∧
      item.endpointGeneration = endpointGeneration ∧ item.pid = pid ∧
      (lifecycleRequestId = none ∨ item.lifecycleRequestId = lifecycleRequestId)
  found.map fun e => { indexedSession alive e with terminalUncertain := false }

/-- The index as read back from a snapshot of it. -/
def compacted : SessionIndex T :=
  { index with events := compactEvents alive index.events }

def followedBy (further : List (SessionIndexEvent T)) : SessionIndex T :=
  { index with events := index.events ++ further }

end SessionIndex
end Alive

/-- What every list of events the index holds is: numbered upwards by positive safe
integers, with valid checksums. -/
structure IsEventHistory (sessionIndexChecksum : UnsignedEvent T → JsString)
    (events : List (SessionIndexEvent T)) : Prop where
  increasing : events.Pairwise (fun e e' => e.indexSeq < e'.indexSeq)
  numbered : ∀ e ∈ events, 0 < e.indexSeq ∧ isSafeInteger e.indexSeq = true
  signed : ∀ e ∈ events, e.checksum = sessionIndexChecksum e.toUnsignedEvent

theorem lastValidSeq_of_history {sessionIndexChecksum : UnsignedEvent T → JsString}
    {events : List (SessionIndexEvent T)} (h : IsEventHistory sessionIndexChecksum events)
    {previous : Int} (hafter : ∀ e ∈ events, previous < e.indexSeq) :
    lastValidSeq sessionIndexChecksum previous events =
      some ((events.getLast?.map (fun e => e.indexSeq)).getD previous) := by
  induction events generalizing previous with
  | nil => rfl
  | cons e events ih =>
    obtain ⟨hincreasing, hnumbered, hsigned⟩ := h
    rw [pairwise_cons] at hincreasing
    rw [forall_mem_cons] at hnumbered hsigned hafter
    rw [lastValidSeq, if_neg (by simp [hnumbered.1.2]), if_neg (Int.not_le.mpr hafter.1),
      if_neg (not_not.mpr hsigned.1), ih ⟨hincreasing.2, hnumbered.2, hsigned.2⟩ hincreasing.1,
      getLast?_cons]
    cases events.getLast? <;> rfl

/-- A snapshot of a history that ends at its number is accepted. -/
theorem isValidSnapshot_of_history {sessionIndexChecksum : UnsignedEvent T → JsString}
    {index : SessionIndex T} (h : IsEventHistory sessionIndexChecksum index.events) :
    isValidSnapshot sessionIndexChecksum index.indexSeq index.events = true := by
  obtain ⟨events, warnings⟩ := index
  have hseq := lastValidSeq_of_history h fun e he => (h.numbered e he).1
  rw [isValidSnapshot, SessionIndex.indexSeq, hseq]
  cases hlast : events.getLast? with
  | none =>
    obtain rfl := getLast?_eq_none_iff.mp hlast
    rfl
  | some last =>
    have hmem : last ∈ events := mem_of_getLast? hlast
    obtain ⟨hpos, hsafe⟩ := h.numbered last hmem
    rw [if_neg (by simp [hsafe, Int.le_of_lt hpos]), if_neg (length_pos_of_mem hmem).ne']
    simp

/-- Lists that are cut down to some of their events stay histories. -/
theorem IsEventHistory.sublist {sessionIndexChecksum : UnsignedEvent T → JsString}
    {events events' : List (SessionIndexEvent T)}
    (h : IsEventHistory sessionIndexChecksum events) (hsub : events'.Sublist events) :
    IsEventHistory sessionIndexChecksum events' where
  increasing := h.increasing.sublist hsub
  numbered := fun e he => h.numbered e (hsub.subset he)
  signed := fun e he => h.signed e (hsub.subset he)

/-! ## One session -/

def sessionEvents (events : List (SessionIndexEvent T)) (id : JsString) :
    List (SessionIndexEvent T) :=
  events.filter (fun e => e.sessionId = id)

theorem mem_sessionEvents {events : List (SessionIndexEvent T)} {id : JsString}
    {e : SessionIndexEvent T} : e ∈ sessionEvents events id ↔ e ∈ events ∧ e.sessionId = id := by
  rw [sessionEvents, mem_filter, decide_eq_true_eq]

theorem sessionEvents_append (events further : List (SessionIndexEvent T)) (id : JsString) :
    sessionEvents (events ++ further) id = sessionEvents events id ++ sessionEvents further id :=
  filter_append ..

/-- The first event of the session, if it has one, is no heartbeat. -/
def OpensWithoutHeartbeat (events : List (SessionIndexEvent T)) (id : JsString) : Prop :=
  ∀ e, (sessionEvents events id).head? = some e → e.isHeartbeat = false

/-- What the list knows of a session after some of its events. -/
def foldSession (previous : Option (SessionIndexEvent T)) (events : List (SessionIndexEvent T)) :
    Option (SessionIndexEvent T) :=
  events.foldl (fun v e => some (overPrevious v e)) previous

variable (previous : Option (SessionIndexEvent T))

theorem foldSession_append_singleton (events : List (SessionIndexEvent T)) (e : SessionIndexEvent T)
    :
    foldSession previous (events ++ [e]) = some (overPrevious (foldSession previous events) e) := by
  rw [foldSession, foldl_append]
  rfl

theorem foldSession_cons (e : SessionIndexEvent T) (events : List (SessionIndexEvent T)) :
    foldSession previous (e :: events) = foldSession (some (overPrevious previous e)) events := rfl

theorem foldSession_append (events further : List (SessionIndexEvent T)) :
    foldSession previous (events ++ further) = foldSession (foldSession previous events) further :=
  foldl_append

theorem get_latest (index : SessionIndex T) (id : JsString) :
    index.latest.get id = foldSession none (sessionEvents index.events id) :=
  InsertionMap.get_setAll ..

theorem overPrevious_of_not_heartbeat {e : SessionIndexEvent T} (h : e.isHeartbeat = false)
    (previous : Option (SessionIndexEvent T)) : overPrevious previous e = e := by
  cases previous with
  | none => rfl
  | some p => rw [overPrevious, if_neg (by rw [h]; exact false_ne_true)]

theorem overPrevious_overPrevious {e e' : SessionIndexEvent T} (p : SessionIndexEvent T)
    (he : e.isHeartbeat = true) (he' : e'.isHeartbeat = true) :
    overPrevious (some (overPrevious (some p) e')) e = overPrevious (some p) e := by
  simp only [overPrevious, he, he', if_true]

@[simp] theorem overPrevious_type (e : SessionIndexEvent T) :
    (overPrevious previous e).type = e.type := by
  cases previous with
  | none => rfl
  | some p =>
    rw [overPrevious]
    split_ifs <;> rfl

theorem foldSession_type (events : List (SessionIndexEvent T)) :
    (foldSession none events).map (fun e => e.type) = events.getLast?.map (fun e => e.type) := by
  induction events using reverseRecOn with
  | nil => rfl
  | append_singleton events e _ =>
    rw [foldSession_append_singleton, getLast?_append, getLast?_singleton,
      Option.some_or, Option.map_some, Option.map_some, overPrevious_type]

section
variable {events : List (SessionIndexEvent T)}
    (hopen : ∀ e, events.head? = some e → e.isHeartbeat = false)
include hopen

theorem foldSession_eq : foldSession none events = events.getLast?.map
      (overPrevious (events.filter (fun e => !e.isHeartbeat)).getLast?) := by
  induction events using reverseRecOn with
  | nil => rfl
  | append_singleton events e ih =>
    rw [foldSession_append_singleton, getLast?_append, getLast?_singleton,
      Option.some_or, Option.map_some]
    by_cases he : e.isHeartbeat = true
    · have hhead : ∀ e', events.head? = some e' → e'.isHeartbeat = false := by
        intro e' he'
        apply hopen e'
        rw [head?_append, he', Option.some_or]
      rw [ih hhead, filter_append, filter_cons_of_neg (by simp [he]), filter_nil, append_nil]
      -- the session's first event stands before this heartbeat
      cases events using reverseRecOn with
      | nil =>
        rw [hopen e rfl] at he
        exact absurd he false_ne_true
      | append_singleton events e' _ =>
        rw [getLast?_append, getLast?_singleton, Option.some_or, Option.map_some]
        by_cases he' : e'.isHeartbeat = true
        · cases hlast : ((events ++ [e']).filter (fun e => !e.isHeartbeat)).getLast? with
          | some p => rw [overPrevious_overPrevious p he he']
          | none =>
            rw [getLast?_eq_none_iff, filter_eq_nil_iff] at hlast
            obtain ⟨first, hfirst⟩ : ∃ first, (events ++ [e']).head? = some first := by
              cases events <;> simp
            have := hlast first (mem_of_head? hfirst)
            rw [hhead first hfirst] at this
            exact absurd rfl this
        · rw [not_eq_true] at he'
          rw [overPrevious_of_not_heartbeat he', filter_append, filter_cons_of_pos (by simp [he']),
            filter_nil, getLast?_append, getLast?_singleton, Option.some_or]
    · rw [not_eq_true] at he
      rw [overPrevious_of_not_heartbeat he, overPrevious_of_not_heartbeat he]

/-- Leaving out heartbeats other than the last event does not change what is shown. -/
theorem foldSession_filter {q : SessionIndexEvent T → Bool}
    (hq : ∀ e ∈ events, e.isHeartbeat = false → q e = true)
    (hlast : ∀ e, events.getLast? = some e → q e = true) :
    foldSession none (events.filter q) = foldSession none events := by
  have hothers : (events.filter q).filter (fun e => !e.isHeartbeat) =
      events.filter (fun e => !e.isHeartbeat) := by
    rw [filter_filter]
    apply filter_congr
    intro e he
    cases hheart : e.isHeartbeat with
    | true => rfl
    | false => rw [hq e he hheart]; rfl
  have hend : (events.filter q).getLast? = events.getLast? := by
    cases events using reverseRecOn with
    | nil => rfl
    | append_singleton events e _ =>
      have he : q e = true := hlast e (by simp)
      rw [filter_append, filter_cons_of_pos he, filter_nil, getLast?_append,
        getLast?_append, getLast?_singleton, Option.some_or, Option.some_or]
  have hhead : ∀ e, (events.filter q).head? = some e → e.isHeartbeat = false := by
    cases events with
    | nil => exact fun e h => absurd h (by simp)
    | cons first events =>
      have hfirst := hopen first rfl
      rw [filter_cons_of_pos (hq first mem_cons_self hfirst)]
      intro e he
      obtain rfl := some.inj he
      exact hfirst
  rw [foldSession_eq hhead, foldSession_eq hopen, hothers, hend]

end

/-! ## What a snapshot keeps -/

section Compact
variable (alive : Int → Bool)
variable {e : SessionIndexEvent T} {index : SessionIndex T}

theorem get_latestBySession (events : List (SessionIndexEvent T)) (id : JsString) :
    (latestBySession events).get id = (sessionEvents events id).getLast? := by
  rw [latestBySession, InsertionMap.get_setAll, InsertionMap.get_empty, ← sessionEvents]
  cases sessionEvents events id using reverseRecOn with
  | nil => rfl
  | append_singleton front e _ =>
    rw [foldl_append, getLast?_append, getLast?_singleton, Option.some_or]
    rfl

variable {events : List (SessionIndexEvent T)}

theorem of_mem_deadTerminal {id : JsString}
    (h : id ∈ deadTerminal alive events) : ∃ e, (sessionEvents events id).getLast? = some e ∧
      e.type.isTerminal = true ∧ alive e.pid = false := by
  obtain ⟨⟨id', e⟩, he, rfl⟩ := mem_map.mp h
  obtain ⟨hmem, hdead⟩ := mem_filter.mp he
  rw [InsertionMap.mem_entries_iff, get_latestBySession] at hmem
  rw [and_eq_true, not_eq_true'] at hdead
  exact ⟨e, hmem, hdead⟩

theorem get_latestHeartbeatSeq (hlast : (sessionEvents events e.sessionId).getLast? = some e)
    (he : e.isHeartbeat = true)
    (hlive : e.sessionId ∉ deadTerminal alive events) :
    (latestHeartbeatSeq alive events).get e.sessionId = some e.indexSeq := by
  obtain ⟨front, hfront⟩ : ∃ front, sessionEvents events e.sessionId = front ++ [e] :=
    getLast?_eq_some_iff.mp hlast
  rw [latestHeartbeatSeq, InsertionMap.get_setAll, filter_filter, InsertionMap.get_empty]
  have hsplit : events.filter (fun a => decide (a.sessionId = e.sessionId) &&
      (a.isHeartbeat && decide (a.sessionId ∉ deadTerminal alive events))) =
      (sessionEvents events e.sessionId).filter (fun a => a.isHeartbeat) := by
    rw [sessionEvents, filter_filter]
    apply filter_congr
    intro a _
    by_cases ha : a.sessionId = e.sessionId
    · rw [ha, decide_eq_true hlive, Bool.and_true, Bool.and_comm]
    · rw [decide_eq_false ha, Bool.false_and, Bool.and_false]
  rw [hsplit, hfront, filter_append, filter_cons_of_pos he, filter_nil, foldl_append]
  rfl

/-- The event stays, as the anchor or otherwise. -/
def keptCompacted (events : List (SessionIndexEvent T)) (e : SessionIndexEvent T) : Bool :=
  events.getLast?.any (fun last => e.indexSeq = last.indexSeq) || staysCompacted alive events e

theorem compactEvents_eq_filter (events : List (SessionIndexEvent T)) :
    compactEvents alive events = events.filter (keptCompacted alive events) := by
  unfold compactEvents keptCompacted
  cases hlast : events.getLast? with
  | none =>
    rw [getLast?_eq_none_iff.mp hlast]
    rfl
  | some last => rfl

theorem keptCompacted_of_not_heartbeat (hlive : e.sessionId ∉ deadTerminal alive events)
    (he : e.isHeartbeat = false) :
    keptCompacted alive events e = true := by
  rw [keptCompacted, staysCompacted, if_neg hlive, if_neg (by simp [he]), Bool.or_true]

theorem keptCompacted_of_last (hlive : e.sessionId ∉ deadTerminal alive events)
    (hlast : (sessionEvents events e.sessionId).getLast? = some e) :
    keptCompacted alive events e = true := by
  by_cases he : e.isHeartbeat = true
  · have hget := get_latestHeartbeatSeq alive hlast he hlive
    rw [keptCompacted, staysCompacted, if_neg hlive, if_neg (by simp [hget]), Bool.or_true]
  · exact keptCompacted_of_not_heartbeat alive hlive (Bool.not_eq_true _ ▸ he)

theorem keptCompacted_anchor {last : SessionIndexEvent T}
    (hlast : events.getLast? = some last) : keptCompacted alive events last = true := by
  rw [keptCompacted, hlast, Option.any_some, decide_eq_true rfl, Bool.true_or]

theorem getLast?_compactEvents (events : List (SessionIndexEvent T)) :
    (compactEvents alive events).getLast? = events.getLast? := by
  cases hlast : events.getLast? with
  | none =>
    rw [getLast?_eq_none_iff.mp hlast]
    rfl
  | some last =>
    obtain ⟨front, hfront⟩ := getLast?_eq_some_iff.mp hlast
    have hkept := keptCompacted_anchor alive hlast
    rw [compactEvents_eq_filter]
    generalize keptCompacted alive events = q at hkept
    rw [hfront, filter_append, filter_cons_of_pos hkept, filter_nil,
      getLast?_append, getLast?_singleton, Option.some_or]

theorem sessionEvents_compactEvents (events : List (SessionIndexEvent T)) (id : JsString) :
    sessionEvents (compactEvents alive events) id =
      (sessionEvents events id).filter (keptCompacted alive events) := by
  rw [compactEvents_eq_filter, sessionEvents, sessionEvents, filter_filter, filter_filter]
  apply filter_congr
  intro e _
  rw [Bool.and_comm]

theorem foldSession_compactEvents {id : JsString}
    (hopen : OpensWithoutHeartbeat events id) (hlive : id ∉ deadTerminal alive events) :
    foldSession none (sessionEvents (compactEvents alive events) id) =
      foldSession none (sessionEvents events id) := by
  rw [sessionEvents_compactEvents]
  apply foldSession_filter hopen
  · intro e he hheart
    rw [← (mem_sessionEvents.mp he).2] at hlive
    exact keptCompacted_of_not_heartbeat alive hlive hheart
  · intro e he
    have hid := (mem_sessionEvents.mp (mem_of_getLast? he)).2
    rw [← hid] at hlive he
    exact keptCompacted_of_last alive hlive he

/-- What the list shows of the latest event of a session. -/
def visibleSession (e : SessionIndexEvent T) : Option (IndexedSession T) :=
  if e.type.isTerminal then none else some (indexedSession alive e)

theorem visible_none_of_last (h : ∀ e, events.getLast? = some e → e.type.isTerminal = true) :
    (foldSession none events).bind (visibleSession alive) = none := by
  have htype := foldSession_type events
  cases hfold : foldSession none events with
  | none => rfl
  | some e =>
    rw [hfold] at htype
    cases hlast : events.getLast? with
    | none => simp [hlast] at htype
    | some last =>
      have : e.type = last.type := by simpa [hlast] using htype
      rw [Option.bind_some, visibleSession, this, if_pos (h last hlast)]

/-- A session that is left out is not shown, whether its last event is the anchor or not. -/
theorem dead_not_visible (hincreasing : events.Pairwise (fun e e' => e.indexSeq < e'.indexSeq))
    {id : JsString}
    (hdead : id ∈ deadTerminal alive events) :
    (foldSession none (sessionEvents events id)).bind (visibleSession alive) = none ∧
      (foldSession none (sessionEvents (compactEvents alive events) id)).bind
        (visibleSession alive) = none := by
  obtain ⟨final, hfinal, hterminal, hgone⟩ := of_mem_deadTerminal alive hdead
  constructor
  · apply visible_none_of_last
    intro e he
    obtain rfl := some.inj (hfinal.symm.trans he)
    exact hterminal
  · apply visible_none_of_last
    intro e he
    rw [sessionEvents_compactEvents] at he
    obtain ⟨hmem, hkept⟩ := mem_filter.mp (mem_of_getLast? he)
    obtain ⟨hevents, hid⟩ := mem_sessionEvents.mp hmem
    -- only the anchor is kept, and it is the last event of all
    rw [keptCompacted, staysCompacted, hid, if_pos hdead, Bool.or_false] at hkept
    cases hlast : events.getLast? with
    | none => simp [hlast] at hkept
    | some last =>
      obtain ⟨front, hfront⟩ := getLast?_eq_some_iff.mp hlast
      have hseq : e.indexSeq = last.indexSeq := by simpa [hlast] using hkept
      have heq : e = last := by
        rw [hfront] at hevents hincreasing
        rcases mem_append.mp hevents with hin | hin
        · have := (pairwise_append.mp hincreasing).2.2 e hin last (by simp)
          omega
        · exact mem_singleton.mp hin
      have hsession : (sessionEvents events id).getLast? = some e := by
        have hone : sessionEvents [e] id = [e] := filter_cons_of_pos (by simpa using hid)
        rw [hfront, ← heq, sessionEvents_append, hone, getLast?_append,
          getLast?_singleton, Option.some_or]
      obtain rfl := some.inj (hfinal.symm.trans hsession)
      exact hterminal

/-! ## Readers after a compaction -/

theorem sessions_eq_filterMap (index : SessionIndex T) : (index.listSessions alive).sessions =
      index.latest.values.filterMap (visibleSession alive) := by
  change (index.latest.values.filter _).map _ = _
  rw [← filterMap_eq_map, filterMap_filter]
  apply filterMap_congr
  intro e _
  rw [visibleSession]
  cases e.type.isTerminal <;> rfl

theorem events_followedBy (index : SessionIndex T) (further : List (SessionIndexEvent T)) :
    (index.followedBy further).events = index.events ++ further := rfl

/-- Session by session the readers see the same, before and after further events. -/
theorem visible_compacted
    (hincreasing : index.events.Pairwise (fun e e' => e.indexSeq < e'.indexSeq))
    (hopen : ∀ id, OpensWithoutHeartbeat index.events id) {further : List (SessionIndexEvent T)}
    (hfurther : ∀ id ∈ deadTerminal alive index.events, OpensWithoutHeartbeat further id)
    (id : JsString) :
    ((((index.compacted alive).followedBy further).latest.get id).bind (visibleSession alive)) =
      ((index.followedBy further).latest.get id).bind (visibleSession alive) := by
  rw [get_latest, get_latest, events_followedBy, events_followedBy, sessionEvents_append,
    sessionEvents_append, foldSession_append, foldSession_append, SessionIndex.compacted]
  by_cases hdead : id ∈ deadTerminal alive index.events
  · cases hrest : sessionEvents further id with
    | nil =>
      obtain ⟨hbefore, hafter⟩ := dead_not_visible alive hincreasing hdead
      exact hafter.trans hbefore.symm
    | cons e rest =>
      -- the session comes back with an event that takes nothing over
      have he : e.isHeartbeat = false := hfurther id hdead e (by rw [hrest]; rfl)
      rw [foldSession_cons, foldSession_cons, overPrevious_of_not_heartbeat he,
        overPrevious_of_not_heartbeat he]
  · rw [foldSession_compactEvents alive (hopen id) hdead]

theorem sessionEvents_filter_live {p : JsString → Bool} {id : JsString} (h : p id = true) :
    sessionEvents (events.filter (fun e => p e.sessionId)) id = sessionEvents events id := by
  rw [sessionEvents, sessionEvents, filter_filter]
  apply filter_congr
  intro e _
  by_cases hid : e.sessionId = id
  · rw [hid, h, Bool.and_true]
  · rw [decide_eq_false hid, Bool.false_and]

theorem keys_compacted (hopen : ∀ id, OpensWithoutHeartbeat index.events id) :
    (index.compacted alive).latest.keys.filter
        (fun id => decide (id ∉ deadTerminal alive index.events)) =
      index.latest.keys.filter (fun id => decide (id ∉ deadTerminal alive index.events)) := by
  set p : JsString → Bool := fun id => decide (id ∉ deadTerminal alive index.events) with hp
  rw [SessionIndex.latest, SessionIndex.latest, InsertionMap.keys_setAll_empty,
    InsertionMap.keys_setAll_empty, filter_firsts, filter_firsts, filter_map, filter_map]
  change firsts (((compactEvents alive index.events).filter (fun e => p e.sessionId)).map _) =
    firsts ((index.events.filter (fun e => p e.sessionId)).map _)
  have hcomm : (compactEvents alive index.events).filter (fun e => p e.sessionId) =
      (index.events.filter (fun e => p e.sessionId)).filter (keptCompacted alive index.events) := by
    rw [compactEvents_eq_filter, filter_filter, filter_filter]
    apply filter_congr
    intro e _
    rw [Bool.and_comm]
  rw [hcomm]
  apply firsts_map_filter
  intro before e after hsplit hdropped
  have hlive : p e.sessionId = true := by
    have he : e ∈ index.events.filter (fun e => p e.sessionId) := by rw [hsplit]; simp
    exact (mem_filter.mp he).2
  by_contra hnew
  have hnone : sessionEvents before e.sessionId = [] := by
    apply filter_eq_nil_iff.mpr
    intro e' he' hid
    rw [decide_eq_true_eq] at hid
    exact hnew (hid ▸ mem_map_of_mem he')
  -- the event would be the first one of its session
  have hfirst : (sessionEvents index.events e.sessionId).head? = some e := by
    rw [← sessionEvents_filter_live hlive, hsplit, sessionEvents_append, hnone, nil_append,
      sessionEvents, filter_cons_of_pos (by simp)]
    rfl
  have hkept := keptCompacted_of_not_heartbeat alive (of_decide_eq_true hlive)
    (hopen e.sessionId e hfirst)
  rw [hkept] at hdropped
  exact absurd hdropped.symm false_ne_true

theorem find?_compactEvents {events further : List (SessionIndexEvent T)}
    {p : SessionIndexEvent T → Bool}
    (hp : ∀ e, p e = true → e.isHeartbeat = false ∧ e.sessionId ∉ deadTerminal alive events) :
    (compactEvents alive events ++ further).reverse.find? p =
      (events ++ further).reverse.find? p := by
  rw [reverse_append, reverse_append, find?_append, find?_append,
    compactEvents_eq_filter, ← filter_reverse, find?_filter]
  congr 2
  funext e
  by_cases he : p e = true
  · have hkept := keptCompacted_of_not_heartbeat alive (hp e he).2 (hp e he).1
    rw [he, hkept]
    rfl
  · simp [he]

/-- What the readers say of an index and of its snapshot, after the same further events:
the numbering and the warnings are equal, the sessions are, in an order of their own. -/
structure SameListing (index index' : SessionIndex T) : Prop where
  indexSeq : (index.listSessions alive).indexSeq = (index'.listSessions alive).indexSeq
  warnings : (index.listSessions alive).warnings = (index'.listSessions alive).warnings
  sessions : (index.listSessions alive).sessions.Perm (index'.listSessions alive).sessions

/-- The questions about the hosts of a session have the same answers. -/
structure SameHosts (id : JsString) (index index' : SessionIndex T) : Prop where
  unregistered : ∀ registration : IndexedSession T, registration.sessionId = id →
    index.hostUnregisteredAfter registration = index'.hostUnregisteredAfter registration
  registration : ∀ endpointGeneration pid lifecycleRequestId,
    index.findHostRegistration alive id endpointGeneration pid lifecycleRequestId =
      index'.findHostRegistration alive id endpointGeneration pid lifecycleRequestId

theorem sameHosts_compacted {id : JsString} (hlive : id ∉ deadTerminal alive index.events)
    (further : List (SessionIndexEvent T)) :
    SameHosts alive id ((index.compacted alive).followedBy further) (index.followedBy further) where
  unregistered := by
    rintro registration rfl
    rw [SessionIndex.hostUnregisteredAfter, SessionIndex.hostUnregisteredAfter, events_followedBy,
      events_followedBy, SessionIndex.compacted, find?_compactEvents alive]
    intro e he
    obtain ⟨htype, -, hid, -⟩ := of_decide_eq_true he
    exact ⟨by rw [SessionIndexEvent.isHeartbeat, htype]; rfl, hid ▸ hlive⟩
  registration := by
    intro endpointGeneration pid lifecycleRequestId
    rw [SessionIndex.findHostRegistration, SessionIndex.findHostRegistration, events_followedBy,
      events_followedBy, SessionIndex.compacted, find?_compactEvents alive]
    intro e he
    obtain ⟨htype, hid, -⟩ := of_decide_eq_true he
    exact ⟨by rw [SessionIndexEvent.isHeartbeat, htype]; rfl, hid ▸ hlive⟩

/-- **A snapshot shows what the index showed.**  For every history in which no session
opens with a heartbeat and every test for live processes: the compacted events are an
acceptable snapshot with the same number; the list of sessions is the same, in the same
order; after any further events that open a left out session without a heartbeat the list
has the same sessions again; and about the hosts of the sessions that are not left out
every question has the same answer. -/
theorem compacted_preserves_readers {sessionIndexChecksum : UnsignedEvent T → JsString}
    {index : SessionIndex T} (hhistory : IsEventHistory sessionIndexChecksum index.events)
    (hopen : ∀ id, OpensWithoutHeartbeat index.events id) :
    isValidSnapshot sessionIndexChecksum index.indexSeq (compactEvents alive index.events) = true ∧
      (index.compacted alive).listSessions alive = index.listSessions alive ∧
      (∀ further, (∀ id ∈ deadTerminal alive index.events, OpensWithoutHeartbeat further id) →
        SameListing alive ((index.compacted alive).followedBy further) (index.followedBy further)) ∧
      ∀ further, ∀ id ∉ deadTerminal alive index.events,
        SameHosts alive id ((index.compacted alive).followedBy further)
          (index.followedBy further) := by
  have hseq : (index.compacted alive).indexSeq = index.indexSeq := by
    rw [SessionIndex.indexSeq, SessionIndex.compacted, getLast?_compactEvents]
    rfl
  have hnothing : ∀ id, OpensWithoutHeartbeat ([] : List (SessionIndexEvent T)) id :=
    fun _ _ he => absurd he (by simp [sessionEvents])
  refine ⟨?_, ?_, fun further hfurther => ⟨?_, rfl, ?_⟩, fun further id hlive =>
    sameHosts_compacted alive hlive further⟩
  · have hsub : (compactEvents alive index.events).Sublist index.events := by
      rw [compactEvents_eq_filter]
      exact filter_sublist
    exact hseq ▸ isValidSnapshot_of_history (hhistory.sublist hsub)
  · have hsessions : ((index.compacted alive).listSessions alive).sessions =
        (index.listSessions alive).sessions := by
      rw [sessions_eq_filterMap, sessions_eq_filterMap]
      apply InsertionMap.filterMap_values_eq _ (keys_compacted alive hopen)
      · intro id
        have hsame := visible_compacted alive hhistory.increasing hopen (fun id _ => hnothing id) id
        simpa only [SessionIndex.followedBy, append_nil] using hsame
      · intro id hid
        rw [get_latest]
        exact (dead_not_visible alive hhistory.increasing (by simpa using hid)).2
    change (⟨_, _, _⟩ : SessionList T) = ⟨_, _, _⟩
    rw [SessionList.mk.injEq]
    exact ⟨hseq, hsessions, rfl⟩
  · change ((index.compacted alive).followedBy further).indexSeq =
      (index.followedBy further).indexSeq
    rw [SessionIndex.indexSeq, SessionIndex.indexSeq, events_followedBy, events_followedBy,
      getLast?_append, getLast?_append, SessionIndex.compacted, getLast?_compactEvents]
  · rw [sessions_eq_filterMap, sessions_eq_filterMap]
    exact InsertionMap.filterMap_values_perm
      (visible_compacted alive hhistory.increasing hopen hfurther)

end Compact

def sampleEvent (indexSeq : Int) (type : SessionIndexEventType) (sessionId : JsString) (pid : Int)
    (ts : Nat) (checksum : JsString) : SessionIndexEvent Nat where
  version := 1
  indexSeq
  type
  sessionId
  locator := ⟨js "/r", js "/t"⟩
  endpointGeneration := 1
  pid
  endpointMtimeMs := none
  lifecycleRequestId := none
  terminalUncertain := none
  ts
  checksum

/-- A session with two heartbeats, and one that is closed. -/
def sampleIndex : SessionIndex Nat where
  events := [
    sampleEvent 1 .hostRegistered (js "s1") 10 100
      (js "3526fc59cc603ef71de9bd28852a389a2b04d510a3181358bc592ce285a4ca7d"),
    sampleEvent 2 .hostHeartbeat (js "s1") 10 101
      (js "deb867dd9eed5d1d4766fdac60d372991dd7564c54d7c4094d2bc48f28928d50"),
    sampleEvent 3 .hostRegistered (js "s2") 11 102
      (js "18e3492c65aa9728708c198b0149be96ac219eaf916813b3b851485c6df935e3"),
    sampleEvent 4 .hostHeartbeat (js "s1") 10 103
      (js "1fa7b02a3d819fc3d4de9476ec70df84d2784b6cdf0cecd69e7bd939c4f5b0ce"),
    sampleEvent 5 .sessionClosed (js "s2") 11 104
      (js "5f4de42ca53e0042517f59c8411343050bb6fb0bd98babbb1017f48f96ed6703")]
  warnings := []

/-- The checksums of the sample's events: the SHA-256 sums of their JSON, the fields in
the order in which `append` writes them. -/
def sampleChecksum (e : UnsignedEvent Nat) : JsString :=
  ((sampleIndex.events.find? (fun e' => e'.toUnsignedEvent = e)).map (fun e' => e'.checksum)).getD
    []

/-- The closed session's process is gone. -/
def sampleAlive (pid : Int) : Bool := pid = 10

theorem sampleIndex_isEventHistory : IsEventHistory sampleChecksum sampleIndex.events where
  increasing := by decide
  numbered := by decide
  signed := by decide +kernel

theorem sampleIndex_opens (id : JsString) : OpensWithoutHeartbeat sampleIndex.events id := by
  intro e he
  by_cases h1 : id = js "s1"
  · subst h1
    revert e
    decide
  · by_cases h2 : id = js "s2"
    · subst h2
      revert e
      decide
    · have hother : ∀ e ∈ sampleIndex.events, e.sessionId = js "s1" ∨ e.sessionId = js "s2" := by
        decide
      obtain ⟨hmem, rfl⟩ := mem_sessionEvents.mp (mem_of_head? he)
      rcases hother e hmem with h | h
      · exact absurd h h1
      · exact absurd h h2

/-- The snapshot of the sample leaves out the first heartbeat and the closed session, but
for the anchor, and lists the same. -/
theorem compacted_preserves_readers_sample :
    (compactEvents sampleAlive sampleIndex.events).map (fun e => e.indexSeq) = [1, 4, 5] ∧
      isValidSnapshot sampleChecksum 5 (compactEvents sampleAlive sampleIndex.events) = true ∧
      (sampleIndex.compacted sampleAlive).listSessions sampleAlive =
        sampleIndex.listSessions sampleAlive := by
  have h := compacted_preserves_readers sampleAlive sampleIndex_isEventHistory sampleIndex_opens
  exact ⟨by decide, h.1, h.2.1⟩

end GajaeCode
