import GajaeCode.JsString

/-! # The journal of chat effects

`packages/coding-agent/src/sdk/bus/chat-effect-journal.ts`: effects that a provider can see,
each claimed by an owner for some time under an epoch.  Every operation is one transaction
on the record of one effect.

`N` is the type of times and numbers, of which the journal only uses the operations in
`LeaseNumbers`; `P` is the type of payloads.
-/
namespace GajaeCode
open JsString

/-- What the journal does with numbers: `isPositive leaseMs` is
`Number.isFinite(leaseMs) && leaseMs > 0`. -/
structure LeaseNumbers (N : Type) where
  zero : N
  add : N → N → N
  le : N → N → Bool
  isPositive : N → Bool

inductive ChatEffectState where
  | pending | leased | accepted | uncertain | terminal
  deriving DecidableEq

inductive ChatTransport where
  | discord | slack
  deriving DecidableEq

/-- Provider receipts are identifiers and status only. -/
structure ChatEffectReceipt where
  provider : Option JsString
  messageId : Option JsString
  channelId : Option JsString
  threadId : Option JsString
  timestamp : Option JsString
  status : Option JsString
  deriving DecidableEq

structure ChatEffect (N P : Type) where
  generation : Nat
  id : JsString
  kind : JsString
  transport : ChatTransport
  sessionId : Option JsString
  endpointGeneration : N
  payload : P
  state : ChatEffectState
  owner : Option JsString
  leaseExpiresAt : Option N
  epoch : Nat
  createdAt : N
  updatedAt : N
  receipt : Option ChatEffectReceipt

structure EnqueueChatEffect (N P : Type) where
  id : JsString
  kind : JsString
  transport : ChatTransport
  sessionId : Option JsString
  endpointGeneration : N
  payload : P
  receipt : Option ChatEffectReceipt

structure ChatEffectLease where
  owner : JsString
  epoch : Nat
  deriving DecidableEq

/-- The states that `record` may leave an effect in. -/
inductive RecordedState where
  | accepted | uncertain | terminal
  deriving DecidableEq

def RecordedState.toState : RecordedState → ChatEffectState
  | accepted => .accepted
  | uncertain => .uncertain
  | terminal => .terminal

inductive ChatEffectError where
  | required (name : JsString)
  | differentIdentity (id : JsString)
  | leaseDuration
  | generation (next : Nat)
  deriving DecidableEq

abbrev ChatEffects (N P : Type) := JsString → Option (ChatEffect N P)

/-- What a call leaves, and what it returns. -/
abbrev ChatEffectAnswer (N P : Type) :=
  ChatEffects N P × Except ChatEffectError (Option (ChatEffect N P))

namespace ChatEffectJournal
variable {N P : Type}

def hasImmutableEnqueueIdentity [DecidableEq N] [DecidableEq P] (effect : ChatEffect N P)
    (input : EnqueueChatEffect N P) : Bool :=
  effect.transport = input.transport && effect.kind = input.kind &&
    effect.sessionId = input.sessionId &&
    effect.endpointGeneration = input.endpointGeneration && effect.payload = input.payload

def requireImmutableEnqueueIdentity [DecidableEq N] [DecidableEq P] (effect : ChatEffect N P)
    (input : EnqueueChatEffect N P) : Except ChatEffectError Unit :=
  if hasImmutableEnqueueIdentity effect input then .ok ()
  else .error (.differentIdentity input.id)

def nonEmpty (value name : JsString) : Except ChatEffectError Unit :=
  if value = [] then .error (.required name) else .ok ()

/-- The effect came in from the provider. -/
def isInbound (effect : ChatEffect N P) : Bool := js ".inbound." <:+: effect.kind

def canClaim (numbers : LeaseNumbers N) (effect : ChatEffect N P) (now : N) : Bool :=
  effect.state = .pending || effect.state = .accepted ||
    (effect.state = .uncertain && !isInbound effect) ||
    (effect.state = .leased && numbers.le (effect.leaseExpiresAt.getD numbers.zero) now)

/-- The effect is leased to the owner under the epoch. -/
def heldBy (effect : ChatEffect N P) (lease : ChatEffectLease) : Bool :=
  effect.state = .leased && effect.owner = some lease.owner && effect.epoch = lease.epoch

/-- `ConversationStore.transact`, for updates that return either the record they were given
(`none` here) or a new one, which is what the operation then returns. -/
def transact (effects : ChatEffects N P) (id : JsString)
    (update : Option (ChatEffect N P) → Except ChatEffectError (Option (ChatEffect N P))) :
    ChatEffectAnswer N P :=
  match update (effects id) with
  | .error e => (effects, .error e)
  | .ok none => (effects, .ok none)
  | .ok (some next) =>
    let expectedNext := ((effects id).elim 0 ChatEffect.generation) + 1
    if next.generation = expectedNext then
      (Function.update effects id (some next), .ok (some next))
    else (effects, .error (.generation expectedNext))

/-- The checks that come before a transaction. -/
def guarded (effects : ChatEffects N P) (check : Except ChatEffectError Unit)
    (rest : ChatEffectAnswer N P) : ChatEffectAnswer N P :=
  match check with
  | .error e => (effects, .error e)
  | .ok () => rest

/-- `new` effect of an input. -/
def effectOf (input : EnqueueChatEffect N P) (now : N) : ChatEffect N P where
  generation := 1
  id := input.id
  kind := input.kind
  transport := input.transport
  sessionId := input.sessionId
  endpointGeneration := input.endpointGeneration
  payload := input.payload
  state := .pending
  owner := none
  leaseExpiresAt := none
  epoch := 0
  createdAt := now
  updatedAt := now
  receipt := input.receipt

variable (numbers : LeaseNumbers N) (effects : ChatEffects N P)

def leaseDuration (leaseMs : N) : Except ChatEffectError Unit :=
  if numbers.isPositive leaseMs then .ok () else .error .leaseDuration

/-- An effect that exists is returned, if it is the same one. -/
def enqueue [DecidableEq N] [DecidableEq P] (input : EnqueueChatEffect N P) (now : N) :
    ChatEffectAnswer N P :=
  guarded effects (nonEmpty input.id (js "id")) <|
  guarded effects (nonEmpty input.kind (js "kind")) <|
  match effects input.id with
  | some existing =>
    (effects, (requireImmutableEnqueueIdentity existing input).map fun _ => some existing)
  | none => transact effects input.id fun _ => .ok (some (effectOf input now))

/-- Inserts an effect directly into a live lease. -/
def enqueueAndClaim [DecidableEq N] [DecidableEq P] (input : EnqueueChatEffect N P)
    (owner : JsString) (leaseMs now : N) : ChatEffectAnswer N P :=
  guarded effects (nonEmpty input.id (js "id")) <|
  guarded effects (nonEmpty input.kind (js "kind")) <|
  guarded effects (nonEmpty owner (js "owner")) <|
  guarded effects (leaseDuration numbers leaseMs) <|
  transact effects input.id fun
    | some current => (requireImmutableEnqueueIdentity current input).map fun _ => none
    | none => .ok (some { effectOf input now with
        state := .leased
        owner := some owner
        epoch := 1
        leaseExpiresAt := some (numbers.add now leaseMs) })

def claim (id owner : JsString) (leaseMs now : N) : ChatEffectAnswer N P :=
  guarded effects (nonEmpty owner (js "owner")) <|
  guarded effects (leaseDuration numbers leaseMs) <|
  transact effects id fun
    | none => .ok none
    | some current =>
      if canClaim numbers current now then
        .ok (some { current with
          generation := current.generation + 1
          state := .leased
          owner := some owner
          epoch := current.epoch + 1
          leaseExpiresAt := some (numbers.add now leaseMs)
          updatedAt := now })
      else .ok none

def byHolder (id : JsString) (lease : ChatEffectLease)
    (update : ChatEffect N P → ChatEffect N P) : ChatEffectAnswer N P :=
  transact effects id fun
    | none => .ok none
    | some current =>
      if heldBy current lease then
        .ok (some { update current with generation := current.generation + 1 })
      else .ok none

def renew (id : JsString) (lease : ChatEffectLease) (leaseMs now : N) : ChatEffectAnswer N P :=
  guarded effects (leaseDuration numbers leaseMs) <|
  byHolder effects id lease fun current =>
    { current with leaseExpiresAt := some (numbers.add now leaseMs), updatedAt := now }

/-- Persists provider progress without releasing the owner/epoch fence. -/
def recordReceipt (id : JsString) (lease : ChatEffectLease) (receipt : ChatEffectReceipt)
    (now : N) : ChatEffectAnswer N P :=
  byHolder effects id lease fun current =>
    { current with receipt := some receipt, updatedAt := now }

def record (id : JsString) (lease : ChatEffectLease) (state : RecordedState)
    (receipt : Option ChatEffectReceipt) (now : N) : ChatEffectAnswer N P :=
  byHolder effects id lease fun current =>
    { current with
      state := state.toState
      owner := none
      leaseExpiresAt := none
      receipt
      updatedAt := now }

/-- Irreversibly rejects an effect whose mapping never accepted its authority. -/
def terminalize (id : JsString) (receipt : ChatEffectReceipt) (lease : Option ChatEffectLease)
    (now : N) : ChatEffectAnswer N P :=
  transact effects id fun
    | none => .ok none
    | some current =>
      if current.state = .terminal then .ok none
      else if current.state = .leased && !lease.any (heldBy current) then .ok none
      else
        .ok (some { current with
          generation := current.generation + 1
          state := .terminal
          owner := none
          leaseExpiresAt := none
          receipt := some receipt
          updatedAt := now })

end ChatEffectJournal

/-- A call of the journal, with the time it reads. -/
inductive ChatEffectOperation (N P : Type) where
  | enqueue (input : EnqueueChatEffect N P) (now : N)
  | enqueueAndClaim (input : EnqueueChatEffect N P) (owner : JsString) (leaseMs now : N)
  | claim (id owner : JsString) (leaseMs now : N)
  | renew (id : JsString) (lease : ChatEffectLease) (leaseMs now : N)
  | recordReceipt (id : JsString) (lease : ChatEffectLease) (receipt : ChatEffectReceipt)
      (now : N)
  | record (id : JsString) (lease : ChatEffectLease) (state : RecordedState)
      (receipt : Option ChatEffectReceipt) (now : N)
  | terminalize (id : JsString) (receipt : ChatEffectReceipt) (lease : Option ChatEffectLease)
      (now : N)

namespace ChatEffectOperation
variable {N P : Type}

def id : ChatEffectOperation N P → JsString
  | enqueue input _ => input.id
  | enqueueAndClaim input _ _ _ => input.id
  | claim id _ _ _ => id
  | renew id _ _ _ => id
  | recordReceipt id _ _ _ => id
  | record id _ _ _ _ => id
  | terminalize id _ _ _ => id

open ChatEffectJournal in
def perform [DecidableEq N] [DecidableEq P] (numbers : LeaseNumbers N)
    (effects : ChatEffects N P) : ChatEffectOperation N P → ChatEffectAnswer N P
  | enqueue input now => ChatEffectJournal.enqueue effects input now
  | enqueueAndClaim input owner leaseMs now =>
    ChatEffectJournal.enqueueAndClaim numbers effects input owner leaseMs now
  | claim id owner leaseMs now => ChatEffectJournal.claim numbers effects id owner leaseMs now
  | renew id lease leaseMs now => ChatEffectJournal.renew numbers effects id lease leaseMs now
  | recordReceipt id lease receipt now =>
    ChatEffectJournal.recordReceipt effects id lease receipt now
  | record id lease state receipt now =>
    ChatEffectJournal.record effects id lease state receipt now
  | terminalize id receipt lease now =>
    ChatEffectJournal.terminalize effects id receipt lease now

end ChatEffectOperation
end GajaeCode
