import Mathlib.Algebra.Order.Field.Basic
import GajaeCode.InsertionMap
import GajaeCode.JsString

/-! # The send pool

`packages/coding-agent/src/sdk/bus/rate-limit-pool.ts`: a token bucket in front of four
lanes of queued items, with a rotation among sessions within a lane.

`R` is the type of times and tokens, a linear ordered field: arithmetic is exact.  `T` is
the type of payloads, which the pool only carries.  A map from lanes is a function.  The
promises of the handles are kept as the ids whose promise is open (`settlements`) and the
list of how the others were settled (`resolved`).
-/
namespace GajaeCode
open JsString

inductive RateLimitLane where
  | ask | finalized | live | idle
  deriving DecidableEq

/-- Lanes ordered from highest to lowest priority. -/
def LANE_PRIORITY : List RateLimitLane := [.ask, .finalized, .live, .idle]

theorem mem_LANE_PRIORITY (lane : RateLimitLane) : lane ∈ LANE_PRIORITY := by
  cases lane <;> decide

theorem nodup_LANE_PRIORITY : LANE_PRIORITY.Nodup := by decide

structure RateLimitItem (R T : Type) where
  sessionId : JsString
  lane : RateLimitLane
  coalesceKey : Option JsString
  itemId : Option JsString
  deadlineAt : Option R
  payload : T

inductive RateLimitDisposition where
  | accepted | rejected | ambiguous | removed | expired
  deriving DecidableEq

structure QueuedItem (R T : Type) where
  item : RateLimitItem R T
  seq : Nat

/-- The result of draining queued work at a point in time. -/
structure RateLimitDrainResult (R T : Type) where
  granted : List (RateLimitItem R T)
  expired : List (RateLimitItem R T)

/-- `markSending` was asked for an item whose promise is not open. -/
inductive PoolError where
  | unknownItem (itemId : JsString)
  deriving DecidableEq

structure RateLimitPool (R T : Type) where
  capacity : R
  refillPerSec : R
  lanes : RateLimitLane → List (QueuedItem R T)
  laneCursor : RateLimitLane → Nat
  tokens : R
  lastRefill : R
  settlements : List JsString
  resolved : List (JsString × RateLimitDisposition)
  seqCounter : Nat

namespace RateLimitItem
variable {R T : Type}

/-- `item.itemId!`; a queued item has one. -/
def id (item : RateLimitItem R T) : JsString := item.itemId.getD []

end RateLimitItem

/-- The sessions with an item in a queue, in the order of their first items. -/
def queuedSessions {R T : Type} (queue : List (QueuedItem R T)) : List JsString :=
  firsts (queue.map fun q => q.item.sessionId)

namespace RateLimitPool
variable {R T : Type}

/-- The promise of an item is settled, if it is open. -/
def settle (p : RateLimitPool R T) (itemId : JsString) (disposition : RateLimitDisposition) :
    RateLimitPool R T :=
  if itemId ∈ p.settlements then
    { p with
      settlements := p.settlements.filter (· ≠ itemId)
      resolved := p.resolved ++ [(itemId, disposition)] }
  else p

/-- The promise of an item is open from now on. -/
def handle (p : RateLimitPool R T) (itemId : JsString) : RateLimitPool R T :=
  { p with settlements := addFirst p.settlements itemId }

def markSending (p : RateLimitPool R T) (itemId : JsString) : Except PoolError Unit :=
  if itemId ∈ p.settlements then .ok () else .error (.unknownItem itemId)

def setLane (p : RateLimitPool R T) (lane : RateLimitLane) (queue : List (QueuedItem R T)) :
    RateLimitPool R T :=
  { p with lanes := Function.update p.lanes lane queue }

@[simp] theorem lanes_setLane (p : RateLimitPool R T) (lane : RateLimitLane)
    (queue : List (QueuedItem R T)) :
    (p.setLane lane queue).lanes = Function.update p.lanes lane queue := rfl

section Settle
variable (p : RateLimitPool R T) (itemId : JsString) (disposition : RateLimitDisposition)

@[simp] theorem lanes_settle : (p.settle itemId disposition).lanes = p.lanes := by
  unfold settle
  split_ifs <;> rfl

@[simp] theorem settlements_settle :
    (p.settle itemId disposition).settlements = p.settlements.filter (· ≠ itemId) := by
  unfold settle
  split_ifs with h
  · rfl
  · refine (List.filter_eq_self.mpr fun other hother => ?_).symm
    simpa using fun heq : other = itemId => h (heq ▸ hother)

/-- What the token bucket consists of. -/
def bucket (p : RateLimitPool R T) : R × R × R × R :=
  (p.capacity, p.refillPerSec, p.tokens, p.lastRefill)

@[simp] theorem bucket_settle : (p.settle itemId disposition).bucket = p.bucket := by
  unfold settle
  split_ifs <;> rfl

end Settle

/-- The id the pool gives to the next item without one. -/
def generatedId (p : RateLimitPool R T) : JsString := js "rate-limit:" ++ ofNat p.seqCounter

def idFor (p : RateLimitPool R T) (item : RateLimitItem R T) : JsString :=
  item.itemId.getD p.generatedId

def identified (p : RateLimitPool R T) (item : RateLimitItem R T) : RateLimitItem R T :=
  { item with itemId := some (p.idFor item) }

/-- The place in its lane of the item that a new one replaces. -/
def coalescesWith (p : RateLimitPool R T) (item : RateLimitItem R T) : Option Nat :=
  if item.itemId = none ∧ item.coalesceKey ≠ none then
    (p.lanes item.lane).findIdx? fun q =>
      q.item.sessionId = item.sessionId ∧ q.item.coalesceKey = item.coalesceKey
  else none

/-- `submit`; the handle has the id of the item and its promise. -/
def submit (p : RateLimitPool R T) (item : RateLimitItem R T) : RateLimitPool R T × JsString :=
  let itemId := p.idFor item
  let identified := p.identified item
  let queue := p.lanes item.lane
  let counted := { p with seqCounter := p.seqCounter + 1 }
  match (p.coalescesWith item).bind fun i => queue[i]?.map (i, ·) with
  | some (i, existing) =>
    let replaced := (counted.settle existing.item.id .removed).setLane item.lane
      (queue.set i { existing with item := identified })
    (replaced.handle itemId, itemId)
  | none =>
    ((counted.setLane item.lane (queue ++ [⟨identified, p.seqCounter⟩])).handle itemId, itemId)

/-- Remove queued items matching the predicate. -/
def removeWhere (p : RateLimitPool R T) (predicate : RateLimitItem R T → Bool)
    (disposition : RateLimitDisposition) : RateLimitPool R T × List (RateLimitItem R T) :=
  let removed := LANE_PRIORITY.flatMap fun lane =>
    ((p.lanes lane).map QueuedItem.item).filter predicate
  let kept := { p with lanes := fun lane => (p.lanes lane).filter fun q => !predicate q.item }
  (removed.foldl (fun p item => p.settle item.id disposition) kept, removed)

/-- The first lane with an item of the id, and its place there. -/
def findItem (p : RateLimitPool R T) (itemId : JsString) : Option (RateLimitLane × Nat) :=
  LANE_PRIORITY.findSome? fun lane =>
    ((p.lanes lane).findIdx? fun q => q.item.itemId = some itemId).map (lane, ·)

/-- Remove exactly one queued item by its id. -/
def removeById (p : RateLimitPool R T) (itemId : JsString) :
    RateLimitPool R T × Option (RateLimitItem R T) :=
  match (p.findItem itemId).bind fun (lane, i) => (p.lanes lane)[i]?.map (lane, i, ·) with
  | some (lane, i, q) =>
    ((p.setLane lane ((p.lanes lane).eraseIdx i)).settle q.item.id .removed, some q.item)
  | none => (p, none)

/-- Choose the index to serve from a lane queue; the cursor after the choice. -/
def pickFairIndex (cursor : Nat) (queue : List (QueuedItem R T)) : Nat × Nat :=
  let sessions := queuedSessions queue
  if sessions.length ≤ 1 then (0, cursor)
  else
    ((List.range sessions.length).findSome? fun offset =>
      (queue.findIdx? fun q =>
        sessions[(cursor + offset) % sessions.length]? = some q.item.sessionId).map fun i =>
          (i, (cursor + offset + 1) % sessions.length)).getD (0, cursor)

/-- The picked item is out of its lane, and the cursor is where the choice left it. -/
def takePicked (p : RateLimitPool R T) (lane : RateLimitLane) (picked : Nat × Nat) :
    RateLimitPool R T :=
  { p.setLane lane ((p.lanes lane).eraseIdx picked.1) with
    laneCursor := Function.update p.laneCursor lane picked.2 }

/-- The next item of the first lane that has one. -/
def takeFrom (p : RateLimitPool R T) :
    List RateLimitLane → RateLimitPool R T × Except PoolError (Option (RateLimitItem R T))
  | [] => (p, .ok none)
  | lane :: lanes =>
    if p.lanes lane = [] then takeFrom p lanes
    else
      let picked := pickFairIndex (p.laneCursor lane) (p.lanes lane)
      let taken := p.takePicked lane picked
      match (p.lanes lane)[picked.1]? with
      | none => (taken, .ok none)
      | some q => (taken, (taken.markSending q.item.id).map fun _ => some q.item)

def takeNext (p : RateLimitPool R T) :
    RateLimitPool R T × Except PoolError (Option (RateLimitItem R T)) :=
  p.takeFrom LANE_PRIORITY

/-- Number of items currently queued across all lanes. -/
def pending (p : RateLimitPool R T) : Nat :=
  (LANE_PRIORITY.map fun lane => (p.lanes lane).length).sum

variable [Field R] [LinearOrder R]

instance : Nat.AtLeastTwo 1000 := inferInstance

def refill (p : RateLimitPool R T) (nowMs : R) : RateLimitPool R T :=
  if nowMs ≤ p.lastRefill then p
  else
    { p with
      tokens := min p.capacity (p.tokens + (nowMs - p.lastRefill) / 1000 * p.refillPerSec)
      lastRefill := nowMs }

/-- The `while` of `drainWithExpired`, at most `fuel` times. -/
def grantLoop : Nat → RateLimitPool R T → List (RateLimitItem R T) →
    RateLimitPool R T × Except PoolError (List (RateLimitItem R T))
  | 0, p, granted => (p, .ok granted)
  | fuel + 1, p, granted =>
    if 1 ≤ p.tokens then
      match p.takeNext with
      | (p, .error e) => (p, .error e)
      | (p, .ok none) => (p, .ok granted)
      | (p, .ok (some item)) =>
        grantLoop fuel { p with tokens := p.tokens - 1 } (granted ++ [item])
    else (p, .ok granted)

/-- The item's deadline has passed. -/
def isExpired (nowMs : R) (item : RateLimitItem R T) : Bool :=
  item.deadlineAt.any (· ≤ nowMs)

/-- Expire elapsed-deadline items, then grant as many live items as tokens allow. -/
def drainWithExpired (p : RateLimitPool R T) (nowMs : R) :
    RateLimitPool R T × Except PoolError (RateLimitDrainResult R T) :=
  let (p, expired) := (p.refill nowMs).removeWhere (isExpired nowMs) .expired
  let (p, result) := p.grantLoop (p.pending + 1) []
  (p, result.map fun granted => ⟨granted, expired⟩)

/-- `new RateLimitPool({ capacity, refillPerSec, now })` -/
def create (capacity refillPerSec : Option R) (nowMs : R) : RateLimitPool R T where
  capacity := max 1 (capacity.getD 20)
  refillPerSec := max 0 (refillPerSec.getD 1)
  lanes _ := []
  laneCursor _ := 0
  tokens := max 1 (capacity.getD 20)
  lastRefill := nowMs
  settlements := []
  resolved := []
  seqCounter := 0

end RateLimitPool

/-- A call of the pool.  Items are submitted with payloads in `T`; in the pool they have
payloads in `U`. -/
inductive PoolOperation (R T U : Type) where
  | submit (item : RateLimitItem R T)
  | drainWithExpired (nowMs : R)
  | removeWhere (predicate : RateLimitItem R U → Bool) (disposition : RateLimitDisposition)
  | removeById (itemId : JsString)
  | settle (itemId : JsString) (disposition : RateLimitDisposition)

end GajaeCode
