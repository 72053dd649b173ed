import Mathlib.Order.Lattice
import GajaeCode.InsertionMap
import GajaeCode.JsString

/-! # Leases of capability providers

`packages/coding-agent/src/sdk/host/reverse-leases.ts`: at most one connection provides a
capability, under a lease that it keeps alive, releases, hands off, or loses.

`N` is the type of times, `D` of definitions, `V` of payloads and results.  Every reading of
the clock is an argument; the field `clock` keeps the last one.  A lease is an object: it
has a reference, and what changes it changes it in its map.  The hooks of the host may
throw, in every call anew.
-/
namespace GajaeCode
open JsString

def MAX_REVERSE_OUTSTANDING : Nat := 64

def MAX_REVERSE_PAYLOAD_BYTES : Nat := 256 * 1024

def REVERSE_RECLAIM_GRACE_MS : Nat := 15000

inductive ReverseLeaseError where
  | lease_unavailable | lease_expired | provider_lease_conflict | provider_required
  | not_lease_owner | payload_too_large | too_many_outstanding | unknown_request
  | idempotency_conflict
  /-- a hook of the host threw -/
  | hook
  deriving DecidableEq

structure ProviderLease (N D : Type) where
  ref : Nat
  leaseId : JsString
  connectionId : JsString
  capability : JsString
  definitions : D
  expiresAt : N
  graceUntil : Option N
  active : Bool

/-- A registration that was made under an idempotency key, with the lease it made. -/
structure Registration where
  fingerprint : JsString
  ref : Nat

structure Outstanding where
  connectionId : JsString
  capability : JsString
  leaseId : JsString

/-- A frame of type `reverse_request`. -/
structure ReverseRequest (V : Type) where
  id : JsString
  capability : JsString
  connectionId : JsString
  leaseId : JsString
  method : JsString
  payload : V

/-- How the promise of a request was settled. -/
inductive ReverseOutcome (V : Type) where
  | resolved (result : V)
  | rejected (name message : JsString)
  | cancelled
  | undelivered

/-- What the runtime is given: the time to live, `registrationFingerprint`, and the length
in bytes of a value's JSON text, if it has one. -/
structure ReverseLeaseOptions (N D V : Type) where
  leaseTtlMs : N
  registrationFingerprint : JsString → D → Option JsString → JsString
  encodedLength : V → Option Nat

/-- Which hooks throw in a call. -/
structure ReverseHooks where
  sendFrame : Bool
  installDefinitions : Bool
  onCancel : JsString → Bool
  onDefinitionsRemoved : JsString → Bool

structure ReverseLeaseRuntime (N D V : Type) where
  leases : InsertionMap JsString (ProviderLease N D)
  idempotency : InsertionMap JsString Registration
  outstanding : InsertionMap JsString Outstanding
  installedCapabilities : List JsString
  settled : List (JsString × ReverseOutcome V)
  sent : List (JsString × ReverseRequest V)
  nextRef : Nat
  clock : N

/-- What a call leaves, and what it returns or throws. -/
abbrev ReverseResult (N D V α : Type) :=
  ReverseLeaseRuntime N D V × Except ReverseLeaseError α

namespace ReverseLeaseRuntime
variable {N D V : Type}

/-- The rest of a call, unless something was thrown. -/
def andThen {α β : Type} (r : ReverseResult N D V α)
    (rest : ReverseLeaseRuntime N D V → α → ReverseResult N D V β) : ReverseResult N D V β :=
  match r with
  | (s, .ok a) => rest s a
  | (s, .error e) => (s, .error e)

/-- `#now()` -/
def read (s : ReverseLeaseRuntime N D V) (now : N) : ReverseLeaseRuntime N D V :=
  { s with clock := now }

def setLease (s : ReverseLeaseRuntime N D V) (lease : ProviderLease N D) :
    ReverseLeaseRuntime N D V :=
  { s with leases := s.leases.set lease.capability lease }

def mutate (s : ReverseLeaseRuntime N D V) (ref : Nat)
    (change : ProviderLease N D → ProviderLease N D) : ReverseLeaseRuntime N D V :=
  { s with
    leases := s.leases.mapValues fun lease => if lease.ref = ref then change lease else lease }

section
variable (s : ReverseLeaseRuntime N D V) (hooks : ReverseHooks)

def removeDefinitions (capability : JsString) : ReverseResult N D V Unit :=
  if capability ∈ s.installedCapabilities then
    ({ s with installedCapabilities := s.installedCapabilities.filter (· ≠ capability) },
      if hooks.onDefinitionsRemoved capability then .error .hook else .ok ())
  else (s, .ok ())

def installDefinitionsFor (capability : JsString) : ReverseResult N D V Unit :=
  if hooks.installDefinitions then (s, .error .hook)
  else ({ s with installedCapabilities := addFirst s.installedCapabilities capability }, .ok ())

def cancelEach (connectionId : JsString) :
    List (JsString × Outstanding) → ReverseLeaseRuntime N D V → ReverseResult N D V Unit
  | [], s => (s, .ok ())
  | (id, request) :: rest, s =>
    if request.connectionId = connectionId then
      let cancelled := { s with
        outstanding := s.outstanding.erase id
        settled := s.settled ++ [(id, .cancelled)] }
      if hooks.onCancel id then (cancelled, .error .hook)
      else cancelEach connectionId rest cancelled
    else cancelEach connectionId rest s

def cancelForConnection (connectionId : JsString) : ReverseResult N D V Unit :=
  cancelEach hooks connectionId s.outstanding.entries s

def owner (connectionId leaseId : JsString) : Except ReverseLeaseError (ProviderLease N D) :=
  match s.leases.values.find? fun candidate => candidate.leaseId = leaseId with
  | some lease =>
    if lease.active ∧ lease.connectionId = connectionId then .ok lease
    else .error .not_lease_owner
  | none => .error .not_lease_owner

def assertPayload (options : ReverseLeaseOptions N D V) (payload : V) :
    Except ReverseLeaseError Unit :=
  if (options.encodedLength payload).any (MAX_REVERSE_PAYLOAD_BYTES < ·) then
    .error .payload_too_large
  else .ok ()

end

variable [LinearOrder N] [Add N] [NatCast N] (options : ReverseLeaseOptions N D V)
  (s : ReverseLeaseRuntime N D V) (hooks : ReverseHooks)

/-! ## Registering -/

def idempotencyKeyOf (connectionId idempotencyKey : JsString) : JsString :=
  connectionId ++ 0 :: idempotencyKey

/-- What an earlier registration under the key returns again, if its lease is live still. -/
def replay (connectionId capability : JsString) (definitions : D)
    (expectedLeaseId idempotencyKey : Option JsString) (now : N) :
    ReverseResult N D V (Option (ProviderLease N D)) :=
  match idempotencyKey.filter (· ≠ []) with
  | none => (s, .ok none)
  | some key =>
    match s.idempotency.get (idempotencyKeyOf connectionId key) with
    | none => (s, .ok none)
    | some registration =>
      if registration.fingerprint ≠
          options.registrationFingerprint capability definitions expectedLeaseId then
        (s, .error .idempotency_conflict)
      else
        match s.leases.get capability with
        | none => (s, .ok none)
        | some current =>
          if registration.ref = current.ref ∧ current.active then
            (s.read now, .ok (if now < current.expiresAt then some current else none))
          else (s, .ok none)

/-- The lease of a registration goes into the maps. -/
def grant (connectionId capability : JsString) (definitions : D)
    (expectedLeaseId idempotencyKey : Option JsString) (leaseId : JsString) (now : N) :
    ReverseResult N D V (ProviderLease N D) :=
  andThen (s.installDefinitionsFor hooks capability) fun s _ =>
    let lease : ProviderLease N D :=
      { ref := s.nextRef
        leaseId
        connectionId
        capability
        definitions
        expiresAt := now + options.leaseTtlMs
        graceUntil := none
        active := true }
    let stored := { s.setLease lease with nextRef := s.nextRef + 1 }
    match idempotencyKey.filter (· ≠ []) with
    | none => (stored, .ok lease)
    | some key =>
      ({ stored with
          idempotency := stored.idempotency.set (idempotencyKeyOf connectionId key)
            ⟨options.registrationFingerprint capability definitions expectedLeaseId,
              lease.ref⟩ },
        .ok lease)

/-- The registration of a capability that has a lease already. -/
def registerOver (existing : ProviderLease N D) (connectionId capability : JsString)
    (definitions : D) (expectedLeaseId idempotencyKey : Option JsString) (uuid : JsString)
    (now : N) : ReverseResult N D V (ProviderLease N D) :=
  let reclaiming := some existing.leaseId = expectedLeaseId ∧
    existing.graceUntil.any (now ≤ ·)
  let refreshing := existing.active ∧ existing.connectionId = connectionId ∧
    now < existing.expiresAt
  if ¬ existing.active ∧ now < existing.expiresAt then
    if existing.connectionId ≠ connectionId ∨ some existing.leaseId ≠ expectedLeaseId then
      (s, .error .provider_lease_conflict)
    else
      grant options s hooks connectionId capability definitions expectedLeaseId idempotencyKey
        existing.leaseId now
  else if ¬ reclaiming ∧ ¬ refreshing ∧ existing.connectionId ≠ connectionId ∧
      now < existing.expiresAt then
    (s, .error .provider_lease_conflict)
  else
    grant options s hooks connectionId capability definitions expectedLeaseId idempotencyKey
      (if reclaiming ∨ refreshing then existing.leaseId else uuid) now

/-- The clock is read once for a replay and once for the rest. -/
def registerProvider (connectionId capability : JsString) (definitions : D)
    (expectedLeaseId idempotencyKey : Option JsString) (uuid : JsString)
    (replayNow now : N) : ReverseResult N D V (ProviderLease N D) :=
  andThen (replay options s connectionId capability definitions expectedLeaseId idempotencyKey
    replayNow) fun s replayed =>
  match replayed with
  | some lease => (s, .ok lease)
  | none =>
    let s := s.read now
    match s.leases.get capability with
    | none =>
      grant options s hooks connectionId capability definitions expectedLeaseId idempotencyKey
        uuid now
    | some existing =>
      andThen (if existing.expiresAt ≤ now then s.removeDefinitions hooks existing.capability
        else (s, .ok ())) fun s _ =>
      registerOver options s hooks existing connectionId capability definitions expectedLeaseId
        idempotencyKey uuid now

def heartbeat (connectionId leaseId : JsString) (now now' : N) :
    ReverseResult N D V (ProviderLease N D) :=
  match s.owner connectionId leaseId with
  | .error e => (s, .error e)
  | .ok lease =>
    let s := s.read now
    if lease.expiresAt ≤ now then
      andThen (s.removeDefinitions hooks lease.capability) fun s _ => (s, .error .lease_expired)
    else
      let beat := fun lease : ProviderLease N D =>
        { lease with expiresAt := now' + options.leaseTtlMs, graceUntil := none }
      ((s.read now').mutate lease.ref beat, .ok (beat lease))

def release (connectionId leaseId : JsString) (handoffTo : Option JsString) (now : N) :
    ReverseResult N D V (ProviderLease N D) :=
  match s.owner connectionId leaseId with
  | .error e => (s, .error e)
  | .ok lease =>
    andThen (s.cancelForConnection hooks connectionId) fun s _ =>
    andThen (s.removeDefinitions hooks lease.capability) fun s _ =>
    match handoffTo.filter (· ≠ []) with
    | some receiver =>
      let reserve := fun lease : ProviderLease N D =>
        { lease with
          connectionId := receiver
          expiresAt := now + ((REVERSE_RECLAIM_GRACE_MS : Nat) : N)
          graceUntil := none
          active := false }
      ((s.read now).mutate lease.ref reserve, .ok (reserve lease))
    | none => ({ s with leases := s.leases.erase lease.capability }, .ok lease)

def disconnectEach (connectionId : JsString) (now : N) :
    List (ProviderLease N D) → ReverseLeaseRuntime N D V → ReverseResult N D V Unit
  | [], s => (s, .ok ())
  | lease :: rest, s =>
    if lease.connectionId = connectionId then
      let lost := s.mutate lease.ref fun lease =>
        { lease with
          expiresAt := now
          graceUntil := some (now + ((REVERSE_RECLAIM_GRACE_MS : Nat) : N)) }
      andThen (lost.removeDefinitions hooks lease.capability) fun s _ =>
        disconnectEach connectionId now rest s
    else disconnectEach connectionId now rest s

def disconnect (connectionId : JsString) (now : N) : ReverseResult N D V Unit :=
  let s := s.read now
  andThen (disconnectEach hooks connectionId now s.leases.values s) fun s _ =>
    s.cancelForConnection hooks connectionId

/-- The sweep reads the clock for every lease. -/
def expireStaleLeases (now : JsString → N) :
    List (ProviderLease N D) → ReverseLeaseRuntime N D V → ReverseResult N D V Unit
  | [], s => (s, .ok ())
  | lease :: rest, s =>
    if lease.expiresAt ≤ now lease.capability then
      andThen (s.removeDefinitions hooks lease.capability) fun s _ =>
        expireStaleLeases now rest s
    else expireStaleLeases now rest s

def liveLease (capability : JsString) (now now' : N) :
    ReverseResult N D V (Option (ProviderLease N D)) :=
  match s.leases.get capability with
  | none => (s, .ok none)
  | some lease =>
    if lease.active ∧ now < lease.expiresAt then (s.read now, .ok (some lease))
    else if lease.expiresAt ≤ now' then
      andThen ((s.read now').removeDefinitions hooks capability) fun s _ => (s, .ok none)
    else (s.read now', .ok none)

/-- Why a capability has no provider. -/
def reservation (capability : JsString) (now : N) : ReverseLeaseError :=
  match s.leases.get capability with
  | none => .provider_required
  | some lease =>
    if ¬ lease.active ∧ now < lease.expiresAt then .lease_unavailable else .provider_required

/-- `request`; it returns the id of the request, whose promise is settled later, or at once
if the frame cannot be sent. -/
def request (capability method : JsString) (payload : V) (uuid : JsString) (now now' now'' : N) :
    ReverseResult N D V JsString :=
  match assertPayload options payload with
  | .error e => (s, .error e)
  | .ok () =>
    andThen (s.liveLease hooks capability now now') fun s live =>
    match live with
    | none => (s.read now'', .error (s.reservation capability now''))
    | some lease =>
      if MAX_REVERSE_OUTSTANDING ≤ s.outstanding.keys.length then
        (s, .error .too_many_outstanding)
      else
        let sent := { s with
          outstanding := s.outstanding.set uuid ⟨lease.connectionId, capability, lease.leaseId⟩
          sent := s.sent ++ [(lease.connectionId,
            ⟨uuid, capability, lease.connectionId, lease.leaseId, method, payload⟩)] }
        if hooks.sendFrame then
          ({ sent with
              outstanding := sent.outstanding.erase uuid
              settled := sent.settled ++ [(uuid, .undelivered)] }, .ok uuid)
        else (sent, .ok uuid)

/-- The delivery of a frame fails after the request returned; a promise is settled once. -/
def deliveryFails (id : JsString) : ReverseLeaseRuntime N D V :=
  if id ∈ s.outstanding.keys then
    { s with
      outstanding := s.outstanding.erase id
      settled := s.settled ++ [(id, .undelivered)] }
  else s

def respond (connectionId id leaseId : JsString) (result : V)
    (error : Option (JsString × JsString)) : ReverseResult N D V Unit :=
  match assertPayload options result with
  | .error e => (s, .error e)
  | .ok () =>
    match s.outstanding.get id with
    | none => (s, .error .unknown_request)
    | some request =>
      if request.connectionId ≠ connectionId ∨ request.leaseId ≠ leaseId then
        (s, .error .not_lease_owner)
      else
        ({ s with
            outstanding := s.outstanding.erase id
            settled := s.settled ++ [(id, match error with
              | none => .resolved result
              | some (code, message) => .rejected code message)] }, .ok ())

end ReverseLeaseRuntime

/-- A call of the runtime, with the times it reads and the hooks that throw in it. -/
inductive ReverseOperation (N D V : Type) where
  | registerProvider (connectionId capability : JsString) (definitions : D)
      (expectedLeaseId idempotencyKey : Option JsString) (uuid : JsString) (replayNow now : N)
      (hooks : ReverseHooks)
  | heartbeat (connectionId leaseId : JsString) (now now' : N) (hooks : ReverseHooks)
  | release (connectionId leaseId : JsString) (handoffTo : Option JsString) (now : N)
      (hooks : ReverseHooks)
  | disconnect (connectionId : JsString) (now : N) (hooks : ReverseHooks)
  | request (capability method : JsString) (payload : V) (uuid : JsString) (now now' now'' : N)
      (hooks : ReverseHooks)
  | deliveryFails (id : JsString)
  | respond (connectionId id leaseId : JsString) (result : V)
      (error : Option (JsString × JsString))
  | expireStaleLeases (now : JsString → N) (hooks : ReverseHooks)

namespace ReverseLeaseRuntime
variable {N D V : Type} [LinearOrder N] [Add N] [NatCast N] (options : ReverseLeaseOptions N D V)

def step (s : ReverseLeaseRuntime N D V) : ReverseOperation N D V → ReverseLeaseRuntime N D V
  | .registerProvider connectionId capability definitions expectedLeaseId idempotencyKey uuid
      replayNow now hooks =>
    (registerProvider options s hooks connectionId capability definitions expectedLeaseId
      idempotencyKey uuid replayNow now).1
  | .heartbeat connectionId leaseId now now' hooks =>
    (heartbeat options s hooks connectionId leaseId now now').1
  | .release connectionId leaseId handoffTo now hooks =>
    (release s hooks connectionId leaseId handoffTo now).1
  | .disconnect connectionId now hooks => (disconnect s hooks connectionId now).1
  | .request capability method payload uuid now now' now'' hooks =>
    (request options s hooks capability method payload uuid now now' now'').1
  | .deliveryFails id => s.deliveryFails id
  | .respond connectionId id leaseId result error =>
    (respond options s connectionId id leaseId result error).1
  | .expireStaleLeases now hooks => (expireStaleLeases hooks now s.leases.values s).1

def create (now : N) : ReverseLeaseRuntime N D V :=
  ⟨.empty, .empty, .empty, [], [], [], 0, now⟩

end ReverseLeaseRuntime
end GajaeCode
