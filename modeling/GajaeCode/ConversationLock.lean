import GajaeCode.InsertionMap
import GajaeCode.JsString

/-! # The conversation store and its lock file

`packages/coding-agent/src/sdk/bus/conversation-store.ts`: processes that share one file of
conversations take a lock file before they read and replace it.

A step is one file system call of one process together with what the process computes
until its next call.  A process is where it is in the code (`Phase`); calls within one
process wait for each other (`queue`).  `P` is the type of processes, `T` of records, `N`
of generations.  Times are in milliseconds.
-/
namespace GajaeCode
open JsString

def UNPUBLISHED_LOCK_STALE_MS : Int := 30000

def MAX_WINDOWS_FILETIME_TICKS : Nat := 18446744073709551615

/-- `/^(?:0|[1-9]\d*)$/` and the bound on its value. -/
def isWindowsFiletimeTicks (value : JsString) : Bool :=
  (value == js "0" || (value.all isDigit && value.head? != some 0x0030 && value != [])) &&
    parseNat value ≤ MAX_WINDOWS_FILETIME_TICKS

/-- `/^\d+$/`. -/
def allDigits (text : JsString) : Bool := text.all isDigit && text != []

/-- `/^darwin:[1-9]\d*:\d+$/` after its first colon. -/
def isDarwinStart (text : JsString) : Bool :=
  let seconds := text.takeWhile isDigit
  seconds != [] && seconds.head? != some 0x0030 &&
    match text.dropWhile isDigit with
    | colon :: rest => colon == 0x003a && allDigits rest
    | [] => false

/-- Whether `value` is a canonical process-incarnation string. -/
def isProcessIncarnation (value : JsString) : Bool :=
  (js "linux:" <+: value && allDigits (value.drop 6)) ||
    (js "darwin:" <+: value && isDarwinStart (value.drop 7)) ||
    (js "windows:" <+: value && isWindowsFiletimeTicks (value.drop 8))

namespace ConversationStore

structure ConversationStoreLock where
  pid : Nat
  incarnation : JsString
  timestamp : Int
  deriving DecidableEq

/-- The number `pid` is positive and a safe integer. -/
def isConversationStoreLock (lock : ConversationStoreLock) : Bool :=
  0 < lock.pid && lock.pid < 2 ^ 53

/-- A lock file.  `id` tells it from all files created before and after it at its path;
`lock` is the lock its text spells, none while the text does not spell one. -/
structure LockFile where
  id : Nat
  lock : Option ConversationStoreLock
  mtimeMs : Int
  deriving DecidableEq

/-- The lock file of the store, and the lock file of those who reclaim it. -/
inductive LockPath where
  | lock | reclaim
  deriving DecidableEq

/-- The processes: each has a pid and, as long as it lives, one incarnation. -/
structure Processes (P : Type) where
  pid : P → Nat
  incarnation : P → JsString
  safe : ∀ p, 0 < pid p ∧ pid p < 2 ^ 53
  canonical : ∀ p, isProcessIncarnation (incarnation p) = true

/-- What a step finds: the clock, what the operating system says of a pid, whether a write
completes and whether a call rejects with another error than that the file is missing or
there already, and whether the deadline has passed. -/
structure Surroundings where
  now : Int
  pidAlive : Nat → Bool
  pidIncarnation : Nat → Option JsString
  completes : Bool
  fails : Bool
  timedOut : Bool

/-- `#isStaleLock` on a lock that could be read. -/
def staleOwner (env : Surroundings) (lock : ConversationStoreLock) : Bool :=
  !env.pidAlive lock.pid ||
    (lock.incarnation != js "unavailable" &&
      (!isProcessIncarnation lock.incarnation ||
        match env.pidIncarnation lock.pid with
        | none => false
        | some current => current != lock.incarnation))

/-- `#isExpiredUnpublishedLock` on what `stat` finds. -/
def isExpired (env : Surroundings) (stat : Option LockFile) : Bool :=
  match stat with
  | none => false
  | some file => !env.fails && UNPUBLISHED_LOCK_STALE_MS ≤ env.now - file.mtimeMs

/-- The own properties of `conversations`. -/
abbrev Document (T : Type) := InsertionMap JsString T

/-- What is in the file of the store. -/
inductive StoredDocument (T : Type) where
  | missing
  | invalid
  | holds (document : Document T)

/-- `#readDocument`. -/
def StoredDocument.read {T : Type} : StoredDocument T → Option (Document T)
  | missing => some InsertionMap.empty
  | invalid => none
  | holds document => some document

/-- Records: their generation, if they have one, the generation that must follow, and what
a read of a property finds on the prototype of `conversations`. -/
structure Records (T N : Type) where
  generation : T → Option N
  nextGeneration : Option N → N
  inherited : JsString → Option T

/-- A call.  An update returns nothing where it returns `undefined` or the record it was
given, and it may throw. -/
inductive Operation (T N : Type) where
  | write (key : JsString) (expectedGeneration : Option N) (record : T)
  | delete (key : JsString) (expectedGeneration : N)
  | transact (key : JsString) (update : Option T → Except Unit (Option T))

section
variable {T N : Type} [DecidableEq N] (records : Records T N)

/-- `document.conversations[key]`. -/
def current (document : Document T) (key : JsString) : Option T :=
  (document.get key).orElse fun _ => records.inherited key

/-- `document.conversations[key] = record`, which sets the prototype where the key says so. -/
def assign (document : Document T) (key : JsString) (record : T) : Document T :=
  if key = js "__proto__" ∧ document.get key = none then document else document.set key record

/-- `record` in the place of a record of generation `expected`. -/
def advance (document : Document T) (key : JsString) (expected : Option N) (record : T) :
    Except Unit (Option (Document T)) :=
  if records.generation record ≠ some (records.nextGeneration expected) then .error ()
  else .ok (some (assign document key record))

/-- What an operation does with the document it read: it throws, it is done, or it has a
document to persist. -/
def Operation.perform (document : Document T) :
    Operation T N → Except Unit (Option (Document T))
  | .write key expectedGeneration record =>
    let found := current records document key
    if found.bind records.generation ≠ expectedGeneration then .ok none
    else if found.isNone ∧ expectedGeneration ≠ none then .ok none
    else advance records document key expectedGeneration record
  | .delete key expectedGeneration =>
    match current records document key with
    | none => .ok none
    | some found =>
      if records.generation found ≠ some expectedGeneration then .ok none
      else .ok (some (document.erase key))
  | .transact key update =>
    let found := current records document key
    match update found with
    | .error _ => .error ()
    | .ok none => .ok none
    | .ok (some next) => advance records document key (found.bind records.generation) next

end

/-- Why a lock file is created. -/
inductive Purpose where
  | acquire
  | reclaim
  /-- once more, after a stale reclaim file was removed -/
  | reclaimAgain
  deriving DecidableEq

def Purpose.path : Purpose → LockPath
  | acquire => .lock
  | reclaim | reclaimAgain => .reclaim

/-- Which of the calls of `#isStaleLock`: the two of `#reclaimStaleLock`, and between them
that of `#acquireReclaimLock`. -/
inductive Check where
  | first | ofReclaim | second
  deriving DecidableEq

def Check.path : Check → LockPath
  | first | second => .lock
  | ofReclaim => .reclaim

/-- How a call ends. -/
inductive Outcome where
  | threw | unchanged | stored
  deriving DecidableEq

/-- The file system call that a process makes next, with what it has at hand: the file it
created, what a check has read of a lock file, the document to persist. -/
inductive Phase (T : Type) where
  | creating (why : Purpose)
  | publishing (why : Purpose) (handle : Nat)
  | withdrawing (why : Purpose) (handle : Nat)
  | checking (check : Check)
  | statting (check : Check) (seen : Option LockFile)
  | discarding
  | unlinking (seen : Option LockFile)
  | leaving (reclaimed : Bool)
  | reading (handle : Nat)
  | persisting (handle : Nat) (document : Document T)
  | releasing (handle : Nat) (outcome : Outcome)

/-- A process with the calls that wait and the one it is in. -/
structure Caller (T N : Type) where
  alive : Bool
  queue : List (Operation T N)
  call : Option (Operation T N × Phase T)

/-- All processes and files.  Kept beside them: the operations in the order in which their
documents were renamed into place, and how calls ended. -/
structure State (P T N : Type) where
  callers : P → Caller T N
  files : LockPath → Option LockFile
  nextId : Nat
  stored : StoredDocument T
  committed : List (P × Operation T N)
  ended : List (P × Operation T N × Outcome)

namespace State
variable {P T N : Type} [DecidableEq P] [DecidableEq N] (s : State P T N)
variable (p : P) (op : Operation T N) (env : Surroundings)

def setCall (call : Option (Operation T N × Phase T)) : State P T N :=
  { s with callers := Function.update s.callers p { s.callers p with call } }

def goOn (phase : Phase T) : State P T N := s.setCall p (some (op, phase))

def finish (outcome : Outcome) : State P T N :=
  { s.setCall p none with ended := s.ended ++ [(p, op, outcome)] }

def setFile (path : LockPath) (file : Option LockFile) : State P T N :=
  { s with files := Function.update s.files path file }

/-- `open(path, "wx")` where there is no file. -/
def createFile (path : LockPath) : State P T N :=
  { s.setFile path (some ⟨s.nextId, none, env.now⟩) with nextId := s.nextId + 1 }

/-- Writes by a handle, to the file wherever it still is. -/
def writeFile (path : LockPath) (handle : Nat) (lock : ConversationStoreLock) : State P T N :=
  match s.files path with
  | none => s
  | some file =>
    if file.id = handle then
      s.setFile path (some ⟨handle, if env.completes then some lock else file.lock, env.now⟩)
    else s

/-- `unlink`, where an error is let pass. -/
def unlink (path : LockPath) : State P T N := if env.fails then s else s.setFile path none

def rename (document : Document T) : State P T N :=
  { s with stored := .holds document, committed := s.committed ++ [(p, op)] }

/-! ## `#acquireFileLock` and `#reclaimStaleLock` -/

/-- The lock was not reclaimed: the deadline decides. -/
def retry : State P T N :=
  if env.timedOut then s.finish p op .threw else s.goOn p op (.creating .acquire)

/-- A lock file could not be created or published. -/
def creationFails : Purpose → State P T N
  | .reclaim => s.retry p op env
  | .acquire | .reclaimAgain => s.finish p op .threw

def create (why : Purpose) : State P T N :=
  if env.fails then s.creationFails p op env why
  else
    match s.files why.path with
    | none => (s.createFile env why.path).goOn p op (.publishing why s.nextId)
    | some _ =>
      match why with
      | .acquire => s.goOn p op (.checking .first)
      | .reclaim => s.goOn p op (.checking .ofReclaim)
      | .reclaimAgain => s.retry p op env

def publish (processes : Processes P) (why : Purpose) (handle : Nat) : State P T N :=
  let pid := processes.pid p
  let lock := ⟨pid, (env.pidIncarnation pid).getD (js "unavailable"), env.now⟩
  let written := s.writeFile env why.path handle lock
  if env.fails then written.goOn p op (.withdrawing why handle)
  else if env.completes then
    match why with
    | .acquire => written.goOn p op (.reading handle)
    | .reclaim | .reclaimAgain => written.goOn p op (.checking .second)
  else written.goOn p op (.publishing why handle)

def withdraw (why : Purpose) : State P T N :=
  (s.unlink env why.path).creationFails p op env why

def judge (check : Check) (seen : Option LockFile) (stale : Bool) : State P T N :=
  match check, stale with
  | .first, true => s.goOn p op (.creating .reclaim)
  | .ofReclaim, true => s.goOn p op .discarding
  | .second, true => s.goOn p op (.unlinking seen)
  | .second, false => s.goOn p op (.leaving false)
  | .first, false | .ofReclaim, false => s.retry p op env

/-- `#isStaleLock` reads the file. -/
def check (check : Check) : State P T N :=
  if env.fails then s.goOn p op (.statting check none)
  else
    match s.files check.path with
    | none => s.judge p op env check none true
    | some file =>
      match file.lock with
      | none => s.goOn p op (.statting check (some file))
      | some lock =>
        if isConversationStoreLock lock then
          s.judge p op env check (some file) (staleOwner env lock)
        else s.goOn p op (.statting check (some file))

def stat (check : Check) (seen : Option LockFile) : State P T N :=
  s.judge p op env check seen (isExpired env (s.files check.path))

def leave (reclaimed : Bool) : State P T N :=
  if reclaimed then (s.unlink env .reclaim).goOn p op (.creating .acquire)
  else (s.unlink env .reclaim).retry p op env

def readDocument (records : Records T N) (handle : Nat) : State P T N :=
  if env.fails then s.goOn p op (.releasing handle .threw)
  else
    match s.stored.read with
    | none => s.goOn p op (.releasing handle .threw)
    | some document =>
      match op.perform records document with
      | .error _ => s.goOn p op (.releasing handle .threw)
      | .ok none => s.goOn p op (.releasing handle .unchanged)
      | .ok (some next) => s.goOn p op (.persisting handle next)

def persist (handle : Nat) (document : Document T) : State P T N :=
  let s' := if env.completes then s.rename p op document else s
  if env.fails then s'.goOn p op (.releasing handle .threw)
  else if env.completes then s'.goOn p op (.releasing handle .stored)
  else s'.goOn p op (.persisting handle document)

/-- The `finally` of `#withLock`. -/
def release (outcome : Outcome) : State P T N :=
  if env.fails then s.finish p op .threw else (s.setFile .lock none).finish p op outcome

/-- The next call of a process in a call of the store. -/
def goFrom (processes : Processes P) (records : Records T N) : Phase T → State P T N
  | .creating why => s.create p op env why
  | .publishing why handle => s.publish p op env processes why handle
  | .withdrawing why _ => s.withdraw p op env why
  | .checking check => s.check p op env check
  | .statting check seen => s.stat p op env check seen
  | .discarding => (s.unlink env .reclaim).goOn p op (.creating .reclaimAgain)
  | .unlinking _ => (s.unlink env .lock).goOn p op (.leaving true)
  | .leaving reclaimed => s.leave p op env reclaimed
  | .reading handle => s.readDocument p op env records handle
  | .persisting handle document => s.persist p op env handle document
  | .releasing _ outcome => s.release p op env outcome

/-- The next call that waits: the directory is made, then the lock file is created. -/
def begin : State P T N :=
  match (s.callers p).queue with
  | [] => s
  | op :: queue =>
    let s' := { s with callers := Function.update s.callers p { s.callers p with queue } }
    if env.fails then s'.finish p op .threw else s'.goOn p op (.creating .acquire)

end State

/-- What happens in one step: a process is called, goes on, or crashes. -/
inductive Action (P T N : Type) where
  | start (p : P) (op : Operation T N)
  | go (p : P) (env : Surroundings)
  | crash (p : P)

section
variable {P T N : Type} [DecidableEq P] [DecidableEq N]

def step (processes : Processes P) (records : Records T N) (s : State P T N) :
    Action P T N → State P T N
  | .start p op =>
    let caller := s.callers p
    { s with callers := Function.update s.callers p { caller with queue := caller.queue ++ [op] } }
  | .go p env =>
    if (s.callers p).alive then
      match (s.callers p).call with
      | none => s.begin p env
      | some (op, phase) => s.goFrom p op env processes records phase
    else s
  | .crash p =>
    { s with callers := Function.update s.callers p { s.callers p with alive := false } }

end

end ConversationStore
end GajaeCode
