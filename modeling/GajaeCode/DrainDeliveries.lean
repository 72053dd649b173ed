import GajaeCode.JsString

/-! # Draining deliveries

`packages/coding-agent/src/async/job-manager.ts`: the queue of deliveries, the loop that works it
off, and a turn of the `while` loop of `drainDeliveries`.

A delivery is listed as in flight, and `#deliveryLoop` is set, until just before the promise that
is waited for is settled; so waiting for one of them is waiting for something.  A disposed manager
starts no loop any more, but the queue still counts as pending (`turn_progresses_iff`).
-/
namespace GajaeCode
open JsString List

/-- `AsyncJobDelivery`, without its text. -/
structure Delivery where
  jobId : JsString
  ownerId : Option JsString
  attempt : Nat
  nextAttemptAt : Nat
deriving DecidableEq

/-- The part of `AsyncJobManager` that delivers. -/
structure DeliveryQueue where
  deliveries : List Delivery
  inFlightDeliveries : List Delivery
  suppressedDeliveries : List JsString
  watchedJobs : List JsString
  /-- the owners with a shutdown lease -/
  fencedOwners : List JsString
  /-- `#deliveryLoop !== undefined` -/
  deliveryLoop : Bool
  disposed : Bool
deriving DecidableEq

namespace DeliveryQueue

def new : DeliveryQueue := ⟨[], [], [], [], [], false, false⟩

def DEFAULT_MAX_DELIVERY_QUEUE : Nat := 100
def DELIVERY_MAX_ATTEMPTS : Nat := 3

section Queue
variable (s : DeliveryQueue)

def isDeliverySuppressed (jobId : JsString) : Bool :=
  jobId ∈ s.suppressedDeliveries || jobId ∈ s.watchedJobs

def isDeliveryFenced (d : Delivery) : Bool :=
  d.ownerId.any fun ownerId => ownerId ≠ [] && ownerId ∈ s.fencedOwners

def deliverable (d : Delivery) : Bool := !s.isDeliverySuppressed d.jobId && !s.isDeliveryFenced d

/-- A filter without an owner lets everything through. -/
def matchesOwner (ownerId : JsString) (d : Delivery) : Bool :=
  ownerId = [] || d.ownerId = some ownerId

/-- `#filterDeliveries` and `#filterInFlightDeliveries`. -/
def filterPending (ownerId : JsString) (ds : List Delivery) : List Delivery :=
  ds.filter fun d => matchesOwner ownerId d && !s.isDeliverySuppressed d.jobId

/-- `getDeliveryState(filter).queued` -/
def pending (ownerId : JsString) : Nat :=
  (s.filterPending ownerId s.deliveries).length +
    (s.filterPending ownerId s.inFlightDeliveries).length

/-- A delivery taken from the queue, and `#deliverDelivery` up to its first `await`. -/
def deliver (d : Delivery) : DeliveryQueue :=
  { s with
    deliveries := s.deliveries.erase d, inFlightDeliveries := s.inFlightDeliveries ++ [d] }

/-- `#runDeliveryLoop` up to its next `await`; without anything to deliver it ends. -/
def runDeliveryLoop (now : Nat) : DeliveryQueue :=
  match s.deliveries.find? s.deliverable with
  | some d => if d.nextAttemptAt ≤ now then s.deliver d else s
  | none => s

def ensureDeliveryLoop (now : Nat) : DeliveryQueue :=
  if s.disposed || s.deliveryLoop then s else runDeliveryLoop { s with deliveryLoop := true } now

/-- `#enqueueDelivery` -/
def enqueueDelivery (now : Nat) (jobId : JsString) (ownerId : Option JsString) : DeliveryQueue :=
  if jobId ∈ s.suppressedDeliveries then s
  else
    let deliveries := s.deliveries ++ [⟨jobId, ownerId, 0, now⟩]
    ensureDeliveryLoop
      { s with deliveries := deliveries.drop (deliveries.length - DEFAULT_MAX_DELIVERY_QUEUE) } now

def acknowledgeDeliveries (jobIds : List JsString) : DeliveryQueue :=
  let suppressedDeliveries := s.suppressedDeliveries ++ jobIds
  { s with
    suppressedDeliveries
    deliveries := s.deliveries.filter fun d => d.jobId ∉ suppressedDeliveries }

def unwatchJobs (now : Nat) (jobIds : List JsString) : DeliveryQueue :=
  let s' := { s with watchedJobs := s.watchedJobs.filter (· ∉ jobIds) }
  if s.watchedJobs.any (· ∈ jobIds) then s'.ensureDeliveryLoop now else s'

/-- `finishOwnerSubagentShutdown`; `confirmed` is `state.proof?.confirmed`. -/
def finishOwnerSubagentShutdown (now : Nat) (ownerId : JsString) (commit confirmed : Bool) :
    DeliveryQueue :=
  let s' :=
    if commit && confirmed then
      s.acknowledgeDeliveries (((s.filterPending ownerId s.deliveries) ++
        s.filterPending ownerId s.inFlightDeliveries).map (·.jobId))
    else s
  let s' := { s' with fencedOwners := s'.fencedOwners.filter (· ≠ ownerId) }
  if commit then s' else s'.ensureDeliveryLoop now

/-- The end of `#deliverDelivery`: `retryAt` is the time of the next attempt after a failure. -/
def settle (now : Nat) (d : Delivery) (retryAt : Option Nat) : DeliveryQueue :=
  let again := retryAt.toList.filterMap fun nextAttemptAt =>
    if d.attempt + 1 < DELIVERY_MAX_ATTEMPTS ∧ d.jobId ∉ s.suppressedDeliveries then
      some { d with attempt := d.attempt + 1, nextAttemptAt }
    else none
  let s' := { s with
    deliveries := s.deliveries ++ again
    inFlightDeliveries := s.inFlightDeliveries.erase d }
  if s'.deliveries.any s'.deliverable then s'.ensureDeliveryLoop now else s'

end Queue

/-! ## A turn of `drainDeliveries` -/

/-- What a turn of the loop comes to: `drainDeliveries` returns, it waits for a promise that is not
settled or for a time that has not come, or it goes on at once. -/
inductive Turn where
  | returns (drained : Bool)
  | awaits
  | goesOn
deriving DecidableEq

section Turn
variable (s : DeliveryQueue) (now : Nat) (deadline : Option Nat)

/-- Whether the deadline has come. -/
def isOver : Bool := deadline.any (· ≤ now)

/-- The wait for a promise up to the deadline: `#waitForDeliveryPromise` of a delivery in flight,
and the race with `#deliveryLoop`. -/
def awaitPromise : Turn := if isOver now deadline then .returns false else .awaits

/-- The first of the deliveries that are due first. -/
def nextDue : List Delivery → Option Delivery
  | [] => none
  | d :: ds =>
    match nextDue ds with
    | some d' => if d'.nextAttemptAt < d.nextAttemptAt then some d' else some d
    | none => some d

/-- `#deliverNextFiltered` up to its next `await`, and what its result makes the turn. -/
def deliverNextFiltered (ownerId : JsString) : DeliveryQueue × Turn :=
  match nextDue (s.deliveries.filter fun d => d.ownerId = some ownerId && s.deliverable d) with
  | none =>
    if s.filterPending ownerId s.inFlightDeliveries ≠ [] then
      (s, awaitPromise now deadline)
    else if s.filterPending ownerId s.deliveries = [] then (s, .goesOn)
    else (s, .returns false)
  | some d =>
    if now < d.nextAttemptAt then
      (s, if deadline.any (· < d.nextAttemptAt) then .returns false else .awaits)
    else (s.deliver d, awaitPromise now deadline)

/-- A turn of the `while` loop. -/
def drainTurn (ownerId : JsString) : DeliveryQueue × Turn :=
  if s.pending ownerId = 0 then (s, .returns true)
  else if ownerId ≠ [] then deliverNextFiltered s now deadline ownerId
  else if s.filterPending [] s.inFlightDeliveries ≠ [] ∧ s.filterPending [] s.deliveries = [] then
    (s, awaitPromise now deadline)
  else
    let s' := s.ensureDeliveryLoop now
    if s'.deliveryLoop then (s', awaitPromise now deadline)
    else (s', .goesOn)

end Turn

/-- What may happen, each at its time. -/
inductive Operation where
  | enqueue (jobId : JsString) (ownerId : Option JsString)
  | acknowledge (jobIds : List JsString)
  | watch (jobIds : List JsString)
  | unwatch (jobIds : List JsString)
  | fence (ownerId : JsString)
  | finishShutdown (ownerId : JsString) (commit confirmed : Bool)
  /-- the loop goes on, or ends because there is nothing to deliver -/
  | loop
  | settle (d : Delivery) (retryAt : Option Nat)
  | drainTurn (ownerId : JsString) (deadline : Option Nat)
  | dispose
  /-- the end of `dispose` -/
  | clear

def step (s : DeliveryQueue) : Nat × Operation → DeliveryQueue
  | (now, .enqueue jobId ownerId) => s.enqueueDelivery now jobId ownerId
  | (_, .acknowledge jobIds) => s.acknowledgeDeliveries jobIds
  | (_, .watch jobIds) => { s with watchedJobs := s.watchedJobs ++ jobIds }
  | (now, .unwatch jobIds) => s.unwatchJobs now jobIds
  | (_, .fence ownerId) => { s with fencedOwners := s.fencedOwners ++ [ownerId] }
  | (now, .finishShutdown ownerId commit confirmed) =>
    s.finishOwnerSubagentShutdown now ownerId commit confirmed
  | (now, .loop) =>
    if s.deliveryLoop then
      if s.deliveries.any s.deliverable then s.runDeliveryLoop now
      else { s with deliveryLoop := false }
    else s
  | (now, .settle d retryAt) => if d ∈ s.inFlightDeliveries then s.settle now d retryAt else s
  | (now, .drainTurn ownerId deadline) => (s.drainTurn now deadline ownerId).1
  | (_, .dispose) => { s with disposed := true }
  | (_, .clear) =>
    { s with
      deliveries := [], inFlightDeliveries := [], suppressedDeliveries := []
      watchedJobs := [], fencedOwners := [] }

/-- The state after some operations. -/
def run (ops : List (Nat × Operation)) : DeliveryQueue := ops.foldl step new

/-! ## Progress -/

/-- The turn returns, waits, or leaves less pending, and once the deadline has come it returns. -/
def Progresses (s : DeliveryQueue) (now : Nat) (deadline : Option Nat) (ownerId : JsString) :
    Prop :=
  let (s', turn) := s.drainTurn now deadline ownerId
  (turn = .goesOn → s'.pending ownerId < s.pending ownerId) ∧
    (isOver now deadline = true → ∃ drained, turn = .returns drained)

/-- The manager is disposed of, no loop is running, and a delivery that is not suppressed is
queued. -/
def Abandoned (s : DeliveryQueue) (ownerId : JsString) : Prop :=
  ownerId = [] ∧ s.disposed = true ∧ s.deliveryLoop = false ∧ s.filterPending [] s.deliveries ≠ []

section Progress
variable {s : DeliveryQueue} {now : Nat} {deadline : Option Nat} {ownerId : JsString}

theorem deliveryLoop_ensureDeliveryLoop :
    (s.ensureDeliveryLoop now).deliveryLoop = (s.deliveryLoop || !s.disposed) := by
  unfold ensureDeliveryLoop
  split_ifs with h
  · cases hloop : s.deliveryLoop <;> cases hdisposed : s.disposed <;> simp_all
  · unfold runDeliveryLoop
    split
    · split_ifs <;> simp_all [deliver]
    · simp_all

theorem awaitPromise_progresses :
    awaitPromise now deadline ≠ .goesOn ∧ (isOver now deadline = true →
      ∃ drained, awaitPromise now deadline = .returns drained) := by
  unfold awaitPromise
  split_ifs with h
  · exact ⟨nofun, fun _ => ⟨false, rfl⟩⟩
  · exact ⟨nofun, fun hover => absurd hover h⟩

theorem deliverNextFiltered_progresses (hpending : s.pending ownerId ≠ 0) :
    (deliverNextFiltered s now deadline ownerId).2 ≠ .goesOn ∧ (isOver now deadline = true →
      ∃ drained, (deliverNextFiltered s now deadline ownerId).2 = .returns drained) := by
  unfold deliverNextFiltered
  split
  · split_ifs with hinFlight hqueued
    · exact awaitPromise_progresses
    · rw [not_ne_iff] at hinFlight
      simp [pending, hinFlight, hqueued] at hpending
    · exact ⟨nofun, fun _ => ⟨false, rfl⟩⟩
  · split_ifs with hlater hmissed
    · exact ⟨nofun, fun _ => ⟨false, rfl⟩⟩
    · refine ⟨nofun, fun hover => absurd ?_ hmissed⟩
      unfold isOver at hover
      rw [Option.any_eq_true] at hover ⊢
      obtain ⟨t, ht, hle⟩ := hover
      exact ⟨t, ht, decide_eq_true (lt_of_le_of_lt (of_decide_eq_true hle) hlater)⟩
    · exact awaitPromise_progresses

/-- An abandoned queue stays as it is, whatever the time. -/
theorem drainTurn_of_abandoned (h : s.Abandoned ownerId) :
    s.drainTurn now deadline ownerId = (s, .goesOn) := by
  obtain ⟨rfl, hdisposed, hloop, hqueued⟩ := h
  have hpending : s.pending [] ≠ 0 := by
    have hpos := length_pos_of_ne_nil hqueued
    unfold pending
    omega
  unfold drainTurn ensureDeliveryLoop
  rw [if_neg hpending, if_neg (by simp), if_neg fun h => hqueued h.2]
  simp [hdisposed, hloop]

theorem progresses_iff : s.Progresses now deadline ownerId ↔ ¬ s.Abandoned ownerId := by
  constructor
  · intro h habandoned
    unfold Progresses at h
    rw [drainTurn_of_abandoned habandoned] at h
    exact lt_irrefl _ (h.1 rfl)
  · intro h
    have hgoes : ∀ r : DeliveryQueue × Turn, (r.2 ≠ .goesOn ∧ (isOver now deadline = true →
        ∃ drained, r.2 = .returns drained)) →
        (r.2 = .goesOn → r.1.pending ownerId < s.pending ownerId) ∧
          (isOver now deadline = true → ∃ drained, r.2 = .returns drained) :=
      fun r hr => ⟨fun heq => absurd heq hr.1, hr.2⟩
    refine hgoes (s.drainTurn now deadline ownerId) ?_
    unfold drainTurn
    dsimp only
    split_ifs with hpending howner hinFlight hloop
    · exact ⟨nofun, fun _ => ⟨true, rfl⟩⟩
    · exact deliverNextFiltered_progresses hpending
    · exact awaitPromise_progresses
    · exact awaitPromise_progresses
    · rw [not_ne_iff] at howner
      have hqueued : s.filterPending [] s.deliveries ≠ [] := by
        intro hnil
        refine hinFlight ⟨fun hnone => hpending ?_, hnil⟩
        simp [pending, howner, hnil, hnone]
      rw [deliveryLoop_ensureDeliveryLoop, Bool.not_eq_true, Bool.or_eq_false_iff,
        Bool.not_eq_false'] at hloop
      exact absurd ⟨howner, hloop.2, hloop.1, hqueued⟩ h

end Progress

/-- **Every turn makes progress unless the queue is abandoned**, in every state a run reaches. -/
theorem turn_progresses_iff (ops : List (Nat × Operation)) (now : Nat) (deadline : Option Nat)
    (ownerId : JsString) :
    (run ops).Progresses now deadline ownerId ↔ ¬ (run ops).Abandoned ownerId :=
  progresses_iff

/-- The owner of the only delivery is shutting down when the manager is disposed of. -/
theorem dispose_spins :
    ¬ (run [(0, .fence (js "a")), (0, .enqueue (js "bg_1") (some (js "a"))), (0, .loop),
      (1, .dispose)]).Progresses 5000 (some 3001) [] := by
  unfold Progresses
  decide

end DeliveryQueue
end GajaeCode
