import GajaeCode.InsertionMap
import GajaeCode.JsonValue

/-! # The forum topics of the sessions

`packages/coding-agent/src/sdk/bus/topic-registry.ts`.  The registry keeps the record of a
session's topic, the route from the topic back to the session, and an epoch of the session's
authority, which a deletion advances.

Creating a topic waits for the network, so `getOrCreateTopic` is three steps with anything in
between: the request, what is done once `create` has settled (`createResolves`,
`createRejects`), and the caller's `finally`, which forgets the promise.  All other operations
are one step.  Numbers of a serialized state are a parameter with the tests `load` makes.
-/
namespace GajaeCode
open JsString

/-- What `load` asks of the numbers of a serialized state. -/
structure JsonNumbers (N : Type) where
  zero : N
  /-- The number as a natural number, if `Number.isSafeInteger(n) && n >= 0`. -/
  safeNat : N → Option Nat
  /-- `Number.isFinite(n) && n >= 0`. -/
  finiteNonNegative : N → Bool

inductive AuthorityState where
  | active | deletePending
  deriving DecidableEq

structure TopicRecord (N : Type) where
  topicId : JsString
  identitySent : Bool
  createdAt : N
  orphanedAt : Option N
  name : Option JsString
  /-- `nameOwner === "user"` -/
  userOwned : Bool
  nameReconcilePending : Option Bool
  userNameUpdateId : Option Nat
  identityKey : Option JsString
  replayGeneration : Option Nat
  replaySeq : Option Nat
  authorityEpoch : Option Nat
  authorityState : Option AuthorityState

/-- `TopicRegistryState`: the entries of its two records, as `JSON.parse` gives them. -/
structure TopicRegistryState (N : Type) where
  topics : JsFields N
  fences : JsFields N

/-- A create that is on its way, or settled and not yet forgotten. -/
structure InflightCreate where
  epoch : Nat
  name : Option JsString
  settled : Bool

structure TopicRegistry (N : Type) where
  topics : InsertionMap JsString (TopicRecord N)
  byTopic : InsertionMap JsString JsString
  ambiguousTopicIds : List JsString
  inflight : InsertionMap JsString InflightCreate
  epochs : InsertionMap JsString Nat

inductive TopicError where
  | deletionFenced | invalidThreadId | revoked
  deriving DecidableEq

/-- How a call of `getOrCreateTopic` goes on. -/
inductive TopicRequest (N : Type) where
  | throws (error : TopicError)
  | existing (record : TopicRecord N)
  | joins
  | starts

/-- `epoch + 1`; above `2 ^ 53` a double has no successor at distance one. -/
def nextEpoch (epoch : Nat) : Nat := if epoch < 2 ^ 53 then epoch + 1 else epoch

/-- A field of a value that need not be an object. -/
def JsValue.field {N : Type} (v : JsValue N) (k : JsString) : JsValue N :=
  match v with
  | .object fields => getField fields k
  | _ => .undefined

/-- The topic id, if `isValidTopicId`: digits without a leading zero, and safe. -/
def validTopicId {N : Type} (value : JsValue N) : Option JsString :=
  match value with
  | .string topicId =>
    if topicId.head? ≠ some 0x0030 ∧ topicId ≠ [] ∧ topicId.all isDigit ∧
        parseNat topicId < 2 ^ 53 then some topicId
    else none
  | _ => none

namespace TopicRecord
variable {N : Type}

/-- `record.authorityState === "delete_pending"` -/
def isDeletePending (record : TopicRecord N) : Bool :=
  record.authorityState = some .deletePending

/-- The record of a session whose topic is being deleted. -/
def fence (record : TopicRecord N) (epoch : Nat) : TopicRecord N :=
  { record with authorityEpoch := some epoch, authorityState := some .deletePending }

variable (numbers : JsonNumbers N)

def safeNat (v : JsValue N) : Option Nat :=
  match v with
  | .number n => numbers.safeNat n
  | _ => none

def string? (v : JsValue N) : Option JsString :=
  match v with
  | .string s => some s
  | _ => none

def isTrue (v : JsValue N) : Bool :=
  match v with
  | .boolean b => b
  | _ => false

/-- The user's claim on the name: the id of the update, if the claim is whole. -/
def userAuthority (raw : JsValue N) : Option Nat :=
  match string? (raw.field (js "nameOwner")), string? (raw.field (js "name")) with
  | some owner, some name =>
    if owner = js "user" ∧ trim name ≠ [] then
      safeNat numbers (raw.field (js "userNameUpdateId"))
    else none
  | _, _ => none

def replayCursorOf (raw : JsValue N) : Option (Nat × Nat) :=
  match safeNat numbers (raw.field (js "replayGeneration")),
      safeNat numbers (raw.field (js "replaySeq")) with
  | some generation, some seq => if 1 ≤ generation then some (generation, seq) else none
  | _, _ => none

/-- The record `load` makes of a serialized one. -/
def normalize (raw : JsValue N) : Option (TopicRecord N) :=
  (validTopicId (raw.field (js "topicId"))).map fun topicId =>
    let user := userAuthority numbers raw
    let cursor := replayCursorOf numbers raw
    { topicId
      identitySent := isTrue (raw.field (js "identitySent"))
      createdAt := match raw.field (js "createdAt") with
        | .number n => n
        | _ => numbers.zero
      name := string? (raw.field (js "name"))
      orphanedAt := match raw.field (js "orphanedAt") with
        | .number n => if numbers.finiteNonNegative n then some n else none
        | _ => none
      userOwned := user.isSome
      nameReconcilePending :=
        if user.isSome && isTrue (raw.field (js "nameReconcilePending")) then some true else none
      userNameUpdateId := user
      identityKey := string? (raw.field (js "identityKey"))
      replayGeneration := cursor.map Prod.fst
      replaySeq := cursor.map Prod.snd
      authorityEpoch := safeNat numbers (raw.field (js "authorityEpoch"))
      authorityState :=
        if string? (raw.field (js "authorityState")) = some (js "delete_pending") then
          some .deletePending
        else none }

end TopicRecord

namespace TopicRegistry
variable {N : Type}

/-- `this.epochs.get(sessionId) ?? 0` -/
def epochOf (r : TopicRegistry N) (sessionId : JsString) : Nat := (r.epochs.get sessionId).getD 0

/-- One record of the first loop of `rebuildInboundRoutes`. -/
def scanRoute (scan : InsertionMap JsString JsString × List JsString)
    (entry : JsString × TopicRecord N) : InsertionMap JsString JsString × List JsString :=
  if entry.2.isDeletePending then (scan.1, addFirst scan.2 entry.2.topicId)
  else if (scan.1.get entry.2.topicId).isSome then (scan.1, addFirst scan.2 entry.2.topicId)
  else (scan.1.set entry.2.topicId entry.1, scan.2)

def rebuildInboundRoutes (r : TopicRegistry N) : TopicRegistry N :=
  let scan := r.topics.entries.foldl scanRoute (.empty, [])
  { r with
    byTopic := ⟨scan.1.entries.filter (fun e => e.1 ∉ scan.2),
      scan.1.nodup.sublist (List.filter_sublist.map Prod.fst)⟩
    ambiguousTopicIds := scan.2 }

variable (numbers : JsonNumbers N)

def loadFence (r : TopicRegistry N) (entry : JsString × JsValue N) : TopicRegistry N :=
  match TopicRecord.safeNat numbers entry.2 with
  | some epoch => { r with epochs := r.epochs.set entry.1 epoch }
  | none => r

def loadTopic (r : TopicRegistry N) (entry : JsString × JsValue N) : TopicRegistry N :=
  match TopicRecord.normalize numbers entry.2 with
  | some record =>
    { r with
      epochs := r.epochs.set entry.1 (max (r.epochOf entry.1) (record.authorityEpoch.getD 0))
      topics := r.topics.set entry.1 record }
  | none => r

def load (r : TopicRegistry N) (state : TopicRegistryState N) : TopicRegistry N :=
  rebuildInboundRoutes
    (state.topics.foldl (loadTopic numbers) (state.fences.foldl (loadFence numbers) r))

def empty : TopicRegistry N := ⟨.empty, .empty, [], .empty, .empty⟩

/-- `new TopicRegistry(state)` -/
def create (state : TopicRegistryState N) : TopicRegistry N := empty.load numbers state

/-- Resolve the owning session for a topic id. -/
def sessionForTopic (r : TopicRegistry N) (topicId : JsString) : Option JsString :=
  r.byTopic.get topicId

/-! ## Creating -/

variable (r : TopicRegistry N) (sessionId : JsString)

/-- `getOrCreateTopic` up to the call of `create`. -/
def getOrCreateTopic (name : Option JsString) : TopicRegistry N × TopicRequest N :=
  match r.topics.get sessionId with
  | some record =>
    if record.isDeletePending then (r, .throws .deletionFenced) else (r, .existing record)
  | none =>
    match r.inflight.get sessionId with
    | some _ => (r, .joins)
    | none =>
      ({ r with inflight := r.inflight.set sessionId ⟨r.epochOf sessionId, name, false⟩ },
        .starts)

/-- The record of a topic that has just been created. -/
def createdRecord (topicId : JsString) (create : InflightCreate)
    (now : N) : TopicRecord N where
  topicId
  identitySent := false
  createdAt := now
  orphanedAt := none
  name := create.name
  userOwned := false
  nameReconcilePending := none
  userNameUpdateId := none
  identityKey := none
  replayGeneration := none
  replaySeq := none
  authorityEpoch := some (r.epochOf sessionId)
  authorityState := if r.epochOf sessionId ≠ create.epoch then some .deletePending else none

/-- The route of a topic that has just been created. -/
def routeCreated (topicId : JsString) : TopicRegistry N :=
  if topicId ∈ r.ambiguousTopicIds then r
  else if (r.byTopic.get topicId).isSome then
    { r with
      byTopic := r.byTopic.erase topicId
      ambiguousTopicIds := addFirst r.ambiguousTopicIds topicId }
  else { r with byTopic := r.byTopic.set topicId sessionId }

/-- `create` has resolved to a topic id. -/
def commitCreated (topicId : JsString) (create : InflightCreate)
    (now : N) : TopicRegistry N × Except TopicError (TopicRecord N) :=
  let record := r.createdRecord sessionId topicId create now
  let r := { r with topics := r.topics.set sessionId record }
  if r.epochOf sessionId ≠ create.epoch then (r, .error .revoked)
  else (r.routeCreated sessionId topicId, .ok record)

/-- The create of a session that is still on its way. -/
def awaited : Option InflightCreate :=
  (r.inflight.get sessionId).filter fun create => !create.settled

def settleInflight (create : InflightCreate) : TopicRegistry N :=
  { r with inflight := r.inflight.set sessionId { create with settled := true } }

/-- `create` has resolved to some value: what the promise settles to, where there is one. -/
def createResolves (value : JsValue N) (now : N) :
    TopicRegistry N × Option (Except TopicError (TopicRecord N)) :=
  match r.awaited sessionId with
  | none => (r, none)
  | some create =>
    match validTopicId value with
    | none => (r.settleInflight sessionId create, some (.error .invalidThreadId))
    | some topicId =>
      ((r.settleInflight sessionId create).commitCreated sessionId topicId create now).map id some

def createRejects : TopicRegistry N :=
  match r.awaited sessionId with
  | none => r
  | some create => r.settleInflight sessionId create

/-- The `finally` of the caller whose promise is settled. -/
def forgetInflight : TopicRegistry N :=
  match r.inflight.get sessionId with
  | none => r
  | some create =>
    if create.settled then { r with inflight := r.inflight.erase sessionId } else r

/-- The route of a session's record is withdrawn. -/
def unroute (record : TopicRecord N) : TopicRegistry N :=
  if r.byTopic.get record.topicId = some sessionId then
    { r with byTopic := r.byTopic.erase record.topicId }
  else r

def deletionEpoch : Nat :=
  nextEpoch (max (r.epochOf sessionId)
    (((r.topics.get sessionId).bind TopicRecord.authorityEpoch).getD 0))

/-- Fence new work before the remote delete starts. -/
def beginDelete : TopicRegistry N × Option (TopicRecord N) :=
  let epoch := r.deletionEpoch sessionId
  let fenced := { r with epochs := r.epochs.set sessionId epoch }
  match r.topics.get sessionId with
  | none => (fenced, none)
  | some record =>
    let pending := record.fence epoch
    (({ fenced with topics := r.topics.set sessionId pending }).unroute sessionId pending,
      some pending)

/-- Remove only after a definite remote deletion. -/
def settleDelete (topicId : JsString) : TopicRegistry N × Bool :=
  match r.topics.get sessionId with
  | none => (r, false)
  | some record =>
    if record.topicId ≠ topicId ∨ record.isDeletePending = false then (r, false)
    else ({ r with topics := r.topics.erase sessionId }, true)

/-- Remove a topic record immediately. -/
def delete : TopicRegistry N × Bool :=
  match r.topics.get sessionId with
  | none => (r, false)
  | some record =>
    let fenced := { r with epochs := r.epochs.set sessionId (r.deletionEpoch sessionId) }
    let unrouted := fenced.unroute sessionId record
    ({ unrouted with topics := unrouted.topics.erase sessionId }, true)

/-! ## What is noted in a record -/

/-- The notes a record takes, apart from its authority. -/
inductive Note (N : Type) where
  | identitySent
  | identityKey (key : JsString)
  | orphaned (now : N)
  | notOrphaned
  | replayCursor (generation seq : Nat)
  | userName (name : JsString) (updateId : Nat)
  | userNameReconciled (name : JsString)
  | userNamePending (name : JsString)
  | nameApplied (name : JsString)

/-- The record with the note, if it has anything to say. -/
def Note.take (record : TopicRecord N) : Note N → Option (TopicRecord N)
  | .identitySent => some { record with identitySent := true }
  | .identityKey key =>
    if record.identityKey = some key then none else some { record with identityKey := some key }
  | .orphaned now =>
    if record.orphanedAt.isSome then none else some { record with orphanedAt := some now }
  | .notOrphaned =>
    if record.orphanedAt.isNone then none else some { record with orphanedAt := none }
  | .replayCursor generation seq =>
    if generation < record.replayGeneration.getD 0 ∨
        (generation = record.replayGeneration.getD 0 ∧ seq ≤ record.replaySeq.getD 0) then none
    else some { record with replayGeneration := some generation, replaySeq := some seq }
  | .userName name updateId =>
    if record.userNameUpdateId.any (updateId ≤ ·) then none
    else
      some { record with
        name := some name
        userOwned := true
        nameReconcilePending := some true
        userNameUpdateId := some updateId }
  | .userNameReconciled name =>
    if record.userOwned = false ∨ record.name ≠ some name ∨
        record.nameReconcilePending ≠ some true then none
    else some { record with nameReconcilePending := some false }
  | .userNamePending name =>
    if record.userOwned = false ∨ record.name ≠ some name ∨
        record.nameReconcilePending = some true then none
    else some { record with nameReconcilePending := some true }
  | .nameApplied name =>
    if record.userOwned then none
    else some { record with name := some name, nameReconcilePending := some false }

/-- Takes a note into the record of a session, where there is one; whether it did. -/
def note (n : Note N) : TopicRegistry N × Bool :=
  match (r.topics.get sessionId).bind fun record => n.take record with
  | some record => ({ r with topics := r.topics.set sessionId record }, true)
  | none => (r, false)

def markIdentitySent : TopicRegistry N :=
  (r.note sessionId .identitySent).1

def markIdentityKey (identityKey : JsString) : TopicRegistry N × Bool :=
  r.note sessionId (.identityKey identityKey)

def markOrphaned (now : N) : TopicRegistry N × Bool :=
  r.note sessionId (.orphaned now)

def clearOrphaned : TopicRegistry N × Bool :=
  r.note sessionId .notOrphaned

def markReplayCursor (generation seq : Nat) : TopicRegistry N × Bool :=
  r.note sessionId (.replayCursor generation seq)

inductive UserNameOutcome where
  | updated | duplicate | stale
  deriving DecidableEq

def markUserName (name : JsString) (updateId : Nat) : TopicRegistry N × UserNameOutcome :=
  let noted := r.note sessionId (.userName name updateId)
  let previous := (r.topics.get sessionId).bind TopicRecord.userNameUpdateId
  (noted.1,
    if noted.2 then .updated else if previous = some updateId then .duplicate else .stale)

def markUserNameReconciled (name : JsString) : TopicRegistry N × Bool :=
  r.note sessionId (.userNameReconciled name)

def markUserNamePending (name : JsString) : TopicRegistry N × Bool :=
  r.note sessionId (.userNamePending name)

def markNameApplied (name : JsString) : TopicRegistry N :=
  (r.note sessionId (.nameApplied name)).1

/-- The operations; a note stands for the `mark` operation that takes it. -/
inductive Operation (N : Type) where
  | load (state : TopicRegistryState N)
  | getOrCreateTopic (sessionId : JsString) (name : Option JsString)
  | createResolves (sessionId : JsString) (value : JsValue N) (now : N)
  | createRejects (sessionId : JsString)
  | forgetInflight (sessionId : JsString)
  | beginDelete (sessionId : JsString)
  | settleDelete (sessionId topicId : JsString)
  | delete (sessionId : JsString)
  | note (sessionId : JsString) (n : Note N)

def step : Operation N → TopicRegistry N
  | .load state => r.load numbers state
  | .getOrCreateTopic sessionId name => (r.getOrCreateTopic sessionId name).1
  | .createResolves sessionId value now => (r.createResolves sessionId value now).1
  | .createRejects sessionId => r.createRejects sessionId
  | .forgetInflight sessionId => r.forgetInflight sessionId
  | .beginDelete sessionId => (r.beginDelete sessionId).1
  | .settleDelete sessionId topicId => (r.settleDelete sessionId topicId).1
  | .delete sessionId => (r.delete sessionId).1
  | .note sessionId n => (r.note sessionId n).1

end TopicRegistry
end GajaeCode
