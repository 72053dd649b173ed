import GajaeCode.TeamEvidence

/-! # The task store of a team

`packages/coding-agent/src/gjc-runtime/team-store.ts`: task records and claims are files, and an
operation is a sequence of file writes (`Write`).  The mutation fence runs one operation at a
time, so an operation is what it writes and what it answers (`Outcome`).

Records are JavaScript objects, as they are read from the files.  Events are not modelled, no
operation reads them.
-/
namespace GajaeCode
open JsString JsValue

namespace TeamTasks

/-- What counting versions asks of numbers. -/
class JsCounter (N : Type) [JsNumber N] where
  /-- `Number.isInteger(n) && n > 0` -/
  isPositiveInteger : N → Bool
  /-- `n + 1` -/
  increment : N → N
  isPositiveInteger_one : isPositiveInteger JsNumber.one = true
  isPositiveInteger_increment : ∀ n, isPositiveInteger n = true →
    isPositiveInteger (increment n) = true
  isFinite_of_isPositiveInteger : ∀ n, isPositiveInteger n = true → JsNumber.isFinite n = true
  read_text_of_isPositiveInteger : ∀ n, isPositiveInteger n = true →
    JsNumber.read (JsNumber.text n) = n

instance : JsCounter Nat where
  isPositiveInteger n := 0 < n
  increment n := n + 1
  isPositiveInteger_one := rfl
  isPositiveInteger_increment n _ := by simp
  isFinite_of_isPositiveInteger _ _ := rfl
  read_text_of_isPositiveInteger n _ := parseNat_ofNat n

inductive GjcTeamTaskStatus where
  | pending | blocked | inProgress | completed | failed
  deriving DecidableEq

def GjcTeamTaskStatus.name : GjcTeamTaskStatus → JsString
  | .pending => js "pending"
  | .blocked => js "blocked"
  | .inProgress => js "in_progress"
  | .completed => js "completed"
  | .failed => js "failed"

/-- `status === "completed" || status === "failed"` -/
def GjcTeamTaskStatus.terminal : GjcTeamTaskStatus → Bool
  | .completed | .failed => true
  | _ => false

def taskStatuses : List JsString :=
  [js "pending", js "blocked", js "in_progress", js "completed", js "failed"]

variable {N : Type}

section Gate
variable [JsNumber N]

def canonicalTaskKeys : List JsString :=
  [js "id", js "subject", js "description", js "title", js "objective", js "status", js "assignee",
    js "owner", js "result", js "completion_evidence", js "error", js "blocked_by",
    js "depends_on", js "lane", js "required_role", js "allowed_roles", js "version", js "claim",
    js "created_at", js "updated_at", js "completed_at"]

def canonicalClaimKeys : List JsString := [js "owner", js "token", js "leased_until"]

def isCanonicalPersistedGjcTeamTaskClaim (host : Host) : JsValue N → Bool
  | .object value =>
    hasExactKeys value canonicalClaimKeys && isSafePersistedId (getField value (js "owner")) &&
    isNonEmptyString (getField value (js "token")) &&
    isFiniteTimestamp host (getField value (js "leased_until"))
  | _ => false

def isVersion [JsCounter N] : JsValue N → Bool
  | .number n => JsCounter.isPositiveInteger n
  | _ => false

def isStatus (value : JsValue N) : Bool := taskStatuses.contains (stringOf value)

/-- What the gate asks of each field. -/
def fieldChecks [JsCounter N] (host : Host) : List (JsString × (JsValue N → Bool)) :=
  [(js "id", isSafePersistedId), (js "status", isStatus), (js "subject", isString),
    (js "description", isString), (js "title", isString), (js "objective", isString),
    (js "version", isVersion), (js "created_at", isFiniteTimestamp host),
    (js "updated_at", isFiniteTimestamp host),
    (js "completed_at", optionally (isFiniteTimestamp host)),
    (js "owner", optionally isSafePersistedId), (js "assignee", optionally isSafePersistedId),
    (js "result", optionally isString), (js "error", optionally isString),
    (js "lane", optionally isNonEmptyString), (js "required_role", optionally isNonEmptyString),
    (js "allowed_roles", optionally (isArrayOf isNonEmptyString)),
    (js "depends_on", optionally (isArrayOf isSafePersistedId)),
    (js "blocked_by", optionally (isArrayOf isSafePersistedId)),
    (js "completion_evidence", optionally (isCanonicalCompletionEvidence host)),
    (js "claim", optionally (isCanonicalPersistedGjcTeamTaskClaim host))]

/-- `a === b`, of two texts. -/
def sameText : JsValue N → JsValue N → Bool
  | .string text, .string text' => text = text'
  | _, _ => false

def fieldsOf : JsValue N → JsFields N
  | .object fields => fields
  | _ => []

/-- A claim stands in a task that is in progress, and owned by and assigned to who claims. -/
def claimFits (fields : JsFields N) : Bool :=
  (getField fields (js "claim")).isUndefined ||
    let owner := getField (fieldsOf (getField fields (js "claim"))) (js "owner")
    equalsText (js "in_progress") (getField fields (js "status")) &&
    sameText (getField fields (js "owner")) owner && sameText (getField fields (js "assignee")) owner

def isCanonicalPersistedGjcTeamTask [JsCounter N] (host : Host) (value : JsValue N)
    (fileId : JsString) : Bool :=
  match value with
  | .object fields =>
    hasExactKeys fields canonicalTaskKeys && equalsText fileId (getField fields (js "id")) &&
    (fieldChecks host).all (fun (key, check) => check (getField fields key)) && claimFits fields
  | _ => false

end Gate

/-! ## Records -/

section Records
variable [JsNumber N]

/-- `a ?? b` -/
def coalesce : JsValue N → JsValue N → JsValue N
  | .undefined, b => b
  | .null, b => b
  | a, _ => a

/-- `record[field]`, of a record whose field is a text or missing. -/
def textField (record : JsFields N) (field : JsString) : JsString :=
  match getField record field with
  | .string text => text
  | _ => []

def optionalString : JsValue N → Option JsString
  | .string text => if trim text = [] then none else some (trim text)
  | _ => none

def optionalStringArray : JsValue N → Option (List JsString)
  | .array items =>
    let values := sortedSet (items.filterMap optionalString)
    if values = [] then none else some values
  | _ => none

def textsOf : JsValue N → List JsString
  | .array items => items.map stringOf
  | _ => []

def normalizeGjcTeamTask (raw : JsFields N) : JsFields N :=
  spreadFields raw
    [(js "status", if equalsText (js "complete") (getField raw (js "status")) then
        .string (js "completed") else getField raw (js "status")),
      (js "subject", coalesce (getField raw (js "subject")) (getField raw (js "title"))),
      (js "description", coalesce (getField raw (js "description")) (getField raw (js "objective"))),
      (js "title", coalesce (getField raw (js "title")) (getField raw (js "subject"))),
      (js "objective", coalesce (getField raw (js "objective")) (getField raw (js "description"))),
      (js "version", coalesce (getField raw (js "version")) (.number JsNumber.one)),
      (js "lane", ofOption (optionalString (getField raw (js "lane")))),
      (js "required_role", ofOption (optionalString (getField raw (js "required_role")))),
      (js "allowed_roles", stringArray (optionalStringArray (getField raw (js "allowed_roles"))))]

def taskRecord (value : JsFields N) : Bool :=
  isString (getField value (js "id")) &&
  (match getField value (js "status") with
    | .string status => (taskStatuses ++ [js "complete"]).contains status
    | _ => false) &&
  (isString (getField value (js "subject")) || isString (getField value (js "title"))) &&
  (isString (getField value (js "description")) || isString (getField value (js "objective")))

def getGjcTeamTaskCompletionEvidenceFailure (host : Host) (task : JsFields N) : Option JsString :=
  let id := textField task (js "id")
  if ¬ equalsText (js "completed") (getField task (js "status")) then
    some (js "task_not_completed:" ++ id)
  else
    match getField task (js "completion_evidence") with
    | .object evidence =>
      if ¬ isNonEmptyString (getField evidence (js "recorded_by")) then
        some (evidenceError id (js "recorded_by"))
      else if ¬ isNonEmptyString (getField evidence (js "recorded_at")) then
        some (evidenceError id (js "recorded_at"))
      else
        match normalizeGjcTeamTaskCompletionEvidence host id
            (trim (textField evidence (js "recorded_by"))) (.object evidence)
            (textField evidence (js "recorded_at")) with
        | .ok _ => none
        | .error message => some message
    | _ => some (js "completion_evidence_required:" ++ id)

def isGjcTeamTaskCompletionVerified (host : Host) (task : JsFields N) : Bool :=
  (getGjcTeamTaskCompletionEvidenceFailure host task).isNone

end Records

/-- The files of `tasks` and `claims`, by their names without `.json`. -/
structure TeamStore (N : Type) where
  tasks : List (JsString × JsValue N)
  claims : List (JsString × JsValue N)

/-- A file that is written, or removed. -/
inductive Write (N : Type) where
  | task (id : JsString) (value : JsValue N)
  | claim (id : JsString) (value : JsValue N)
  | unclaim (id : JsString)

def setFile (files : List (JsString × JsValue N)) (name : JsString) (value : JsValue N) :
    List (JsString × JsValue N) :=
  match files with
  | [] => [(name, value)]
  | file :: files =>
    if file.1 = name then (name, value) :: files else file :: setFile files name value

namespace TeamStore

def empty : TeamStore N := ⟨[], []⟩

def apply (store : TeamStore N) : Write N → TeamStore N
  | .task id value => { store with tasks := setFile store.tasks id value }
  | .claim id value => { store with claims := setFile store.claims id value }
  | .unclaim id => { store with claims := store.claims.filter fun file => file.1 ≠ id }

/-- What is left of an operation: the store after the writes it has come to. -/
def write (store : TeamStore N) (writes : List (Write N)) : TeamStore N := writes.foldl apply store

variable [JsNumber N]

/-- The task of a file of `tasks`, if it holds one. -/
def taskOfFile (file : JsString × JsValue N) : Option (JsFields N) :=
  match file.2 with
  | .object record =>
    if (js ".evidence").isSuffixOf file.1 then none
    else if taskRecord record then some (normalizeGjcTeamTask record) else none
  | _ => none

/-- `readGjcTeamTasksFromDir` -/
def list (store : TeamStore N) (host : Host) : List (JsFields N) :=
  (store.tasks.filterMap taskOfFile).mergeSort fun a b =>
    host.localeCompare (textField a (js "id")) (textField b (js "id")) ≤ 0

def read (store : TeamStore N) (host : Host) (id : JsString) : Option (JsFields N) :=
  (store.list host).find? fun task => textField task (js "id") = id

end TeamStore

/-- The metadata of a task; what is missing is not set. -/
structure GjcTeamTaskMetadataInput where
  owner : Option JsString
  lane : Option JsString
  requiredRole : Option JsString
  allowedRoles : Option (List JsString)
  dependsOn : Option (List JsString)
  blockedBy : Option (List JsString)

def GjcTeamTaskMetadataInput.toFields (options : GjcTeamTaskMetadataInput) : JsFields N :=
  definedFields [(js "owner", ofOption options.owner), (js "lane", ofOption options.lane),
    (js "required_role", ofOption options.requiredRole),
    (js "allowed_roles", stringArray options.allowedRoles),
    (js "depends_on", stringArray options.dependsOn),
    (js "blocked_by", stringArray options.blockedBy)]

/-- What an update sets: a field is left alone, or set to a value or to `undefined`. -/
structure TaskUpdates where
  subject : Option (Option JsString)
  description : Option (Option JsString)
  blockedBy : Option (Option (List JsString))
  dependsOn : Option (Option (List JsString))
  lane : Option (Option JsString)
  requiredRole : Option (Option JsString)
  allowedRoles : Option (Option (List JsString))

/-- The field, if it is set. -/
def given {α : Type} (key : JsString) (toValue : Option α → JsValue N) :
    Option (Option α) → JsFields N
  | some value => [(key, toValue value)]
  | none => []

def TaskUpdates.toFields (updates : TaskUpdates) : JsFields N :=
  given (js "subject") ofOption updates.subject ++
  given (js "description") ofOption updates.description ++
  given (js "blocked_by") stringArray updates.blockedBy ++
  given (js "depends_on") stringArray updates.dependsOn ++
  given (js "lane") ofOption updates.lane ++
  given (js "required_role") ofOption updates.requiredRole ++
  given (js "allowed_roles") stringArray updates.allowedRoles

/-- A worker whose id has passed `assertSafeId`, as that of a known worker has. -/
structure GjcTeamTaskWorker where
  id : JsString
  role : JsString
  agentType : JsString
  id_safe : isSafeText id = true

/-- A reading of the clock, as `toISOString` writes it. -/
abbrev Timestamp (host : Host) :=
  { text : JsString // (host.parseDate text).isSome = true ∧ trim text ≠ [] }

/-! ## Operations -/

inductive Answer (N : Type) where
  | task (record : JsFields N)
  | claimed (record : JsFields N) (workerId token : JsString)
  | refused (reason : JsString)
  | thrown (message : JsString)

structure Outcome (N : Type) where
  writes : List (Write N)
  answer : Answer N

section Operations
variable [JsNumber N] [JsCounter N] (host : Host)

/-- `task.version + 1` -/
def nextVersion (task : JsFields N) : JsValue N :=
  match getField task (js "version") with
  | .number n => .number (JsCounter.increment n)
  | value => value

/-- `writeGjcTeamTaskToDir` -/
def writeTask (task : JsFields N) : Write N :=
  .task (textField task (js "id")) (asJson (.object (normalizeGjcTeamTask task)))

def newTask (id subject description : JsString) (options : GjcTeamTaskMetadataInput)
    (createdAt updatedAt : Timestamp host) : JsFields N :=
  spreadFields (spreadFields
    [(js "id", .string id), (js "subject", .string subject),
      (js "description", .string description), (js "title", .string subject),
      (js "objective", .string description), (js "status", .string (js "pending"))]
    options.toFields)
    [(js "version", .number JsNumber.one), (js "created_at", .string createdAt.1),
      (js "updated_at", .string updatedAt.1)]

variable (store : TeamStore N)

def createUnlocked (subject description : JsString)
    (options : GjcTeamTaskMetadataInput) (createdAt updatedAt : Timestamp host) : Outcome N :=
  let id := js "task-" ++ JsString.ofNat ((store.list host).length + 1)
  let task := newTask host id subject description options createdAt updatedAt
  ⟨[writeTask task], .task task⟩

/-- An operation on a task that has been read. -/
def onTask (id : JsString) (operate : JsFields N → Outcome N) : Outcome N :=
  match store.read host id with
  | none => ⟨[], .thrown (js "task_not_found:" ++ id)⟩
  | some task => operate task

/-- `safeId`: the path of a file of a task. -/
def withPath (id : JsString) (outcome : Outcome N) : Outcome N :=
  if isSafeText id then outcome else ⟨[], .thrown (js "invalid_task_id:" ++ id)⟩

def updatedTask (task : JsFields N) (updates : TaskUpdates) (updatedAt : Timestamp host) :
    JsFields N :=
  let subject := ofOption (updates.subject.getD none)
  let description := ofOption (updates.description.getD none)
  normalizeGjcTeamTask (spreadFields (spreadFields task updates.toFields)
    [(js "title", coalesce subject (getField task (js "title"))),
      (js "objective", coalesce description (getField task (js "objective"))),
      (js "version", nextVersion task), (js "updated_at", .string updatedAt.1)])

def updateUnlocked (id : JsString) (updates : TaskUpdates)
    (updatedAt : Timestamp host) : Outcome N :=
  onTask host store id fun task =>
    let updated := updatedTask host task updates updatedAt
    withPath id ⟨[writeTask updated], .task updated⟩

/-- Why a worker may not claim a task. -/
def eligibility (task : JsFields N) (worker : GjcTeamTaskWorker) (tasks : List (JsFields N)) :
    Option JsString :=
  let id := textField task (js "id")
  let owner := textField task (js "owner")
  let assignee := textField task (js "assignee")
  let role := textField task (js "required_role")
  let allowed := textsOf (getField task (js "allowed_roles"))
  let blockedBy := textsOf (getField task (js "blocked_by"))
  let roles := ([worker.role, worker.agentType].map trim).filter fun role => role ≠ []
  if ¬ equalsText (js "pending") (getField task (js "status")) then
    some (js "task_not_pending:" ++ id)
  else if owner ≠ [] ∧ owner ≠ worker.id then
    some (js "task_owner_mismatch:" ++ id ++ js ":" ++ owner)
  else if assignee ≠ [] ∧ assignee ≠ worker.id then
    some (js "task_assignee_mismatch:" ++ id ++ js ":" ++ assignee)
  else if role ≠ [] ∧ role ∉ roles then
    some (js "task_role_mismatch:" ++ id ++ js ":" ++ role)
  else if allowed ≠ [] ∧ ¬ allowed.any roles.contains then
    some (js "task_role_mismatch:" ++ id ++ js ":" ++ (js ",").intercalate allowed)
  else if blockedBy ≠ [] then
    some (js "task_blocked:" ++ id ++ js ":" ++ (js ",").intercalate blockedBy)
  else
    -- the first dependency that is not verified
    (textsOf (getField task (js "depends_on"))).findSome? fun dependency =>
      if tasks.any fun candidate => textField candidate (js "id") = dependency ∧
          isGjcTeamTaskCompletionVerified host candidate then none
      else some (js "task_dependency_incomplete:" ++ id ++ js ":" ++ dependency)

/-- `claimRecord(value)?.leased_until` -/
def claimRecordLease : JsValue N → Option JsString
  | .object value =>
    let lease := textField value (js "leased_until")
    if textField value (js "owner") = [] ∨ textField value (js "token") = [] ∨ lease = [] then none
    else some lease
  | _ => none

/-- Until when a task is claimed, by its record or by a claim file. -/
def existingLease (task : JsFields N) : Option JsString :=
  match getField task (js "claim") with
  | .undefined | .null =>
    (store.claims.lookup (textField task (js "id"))).bind claimRecordLease
  | claim => some (textField (fieldsOf claim) (js "leased_until"))

def expired (now : Int) (leasedUntil : JsString) : Bool :=
  leasedUntil ≠ [] && match host.parseDate leasedUntil with
    | some time => time ≤ now
    | none => false

/-- What a claim takes from outside: a fresh token, the clock in milliseconds and as texts. -/
structure ClaimInput (host : Host) where
  token : JsString
  token_ne_nil : trim token ≠ []
  now : Int
  leasedUntil : Timestamp host
  updatedAt : Timestamp host
  /-- The error of writing the record, if it fails. -/
  writeError : Option JsString

def claimValue (worker : GjcTeamTaskWorker) (input : ClaimInput host) : JsValue N :=
  .object [(js "owner", .string worker.id), (js "token", .string input.token),
    (js "leased_until", .string input.leasedUntil.1)]

def claimedTask (current : JsFields N) (worker : GjcTeamTaskWorker) (input : ClaimInput host) :
    JsFields N :=
  spreadFields current
    [(js "status", .string (js "in_progress")), (js "assignee", .string worker.id),
      (js "owner", .string worker.id), (js "claim", claimValue host worker input),
      (js "version", nextVersion current), (js "updated_at", .string input.updatedAt.1)]

/-- The claim of a task that has been found. -/
def claimTask (task : JsFields N) (worker : GjcTeamTaskWorker)
    (input : ClaimInput host) : Outcome N :=
  let id := textField task (js "id")
  match eligibility host task worker (store.list host) with
  | some reason => ⟨[], .refused reason⟩
  | none =>
    if (existingLease store task).any fun lease => !expired host input.now lease then
      ⟨[], .refused (js "task_already_claimed:" ++ id)⟩
    -- `createJsonNoClobber` throws an `AlreadyExistsError`, which has no `code`: it is thrown on
    else withPath id <| if (store.claims.lookup id).isSome then
      ⟨[], .thrown (js "file already exists: " ++ host.claimPath id)⟩
    else
      let claim : JsValue N := claimValue host worker input
      let claimed := store.apply (.claim id claim)
      match claimed.read host id with
      | none => ⟨[.claim id claim], .thrown (js "task_not_found:" ++ id)⟩
      | some current =>
        match eligibility host current worker (claimed.list host) with
        | some reason => ⟨[.claim id claim, .unclaim id], .refused reason⟩
        | none =>
          let updated := claimedTask host current worker input
          match input.writeError with
          | some message => ⟨[.claim id claim, .unclaim id], .thrown message⟩
          | none => ⟨[.claim id claim, writeTask updated], .claimed updated worker.id input.token⟩

def claimUnlocked (worker : GjcTeamTaskWorker) (id : Option JsString)
    (input : ClaimInput host) : Outcome N :=
  let tasks := store.list host
  match id.filter fun id => id ≠ [] with
  | some id =>
    match tasks.find? fun task => textField task (js "id") = id with
    | none => ⟨[], .refused (js "task_not_found:" ++ id)⟩
    | some task => claimTask host store task worker input
  | none =>
    match tasks.find? fun task => (eligibility host task worker tasks).isNone with
    | none => ⟨[], .refused (js "no_pending_task")⟩
    | some task => claimTask host store task worker input

/-- `deleteIfOwned` of a claim file, by its token. -/
def unclaimIfOwned (id token : JsString) : List (Write N) :=
  match store.claims.lookup id with
  | some claim =>
    if equalsText token (getField (fieldsOf claim) (js "token")) then [.unclaim id] else []
  | none => []

def transitionFields (task : JsFields N) (status : GjcTeamTaskStatus)
    (evidence : Option CompletionEvidence) (now : Timestamp host) : JsFields N :=
  [(js "status", .string status.name),
    (js "claim", if status.terminal then .undefined else getField task (js "claim")),
    (js "version", nextVersion task), (js "updated_at", .string now.1)] ++
  (if status.terminal then [(js "completed_at", .string now.1)] else []) ++
  match evidence with
  | some evidence => [(js "completion_evidence", evidence.toValue)]
  | none => []

def transitionedTask (task : JsFields N) (status : GjcTeamTaskStatus)
    (evidence : Option CompletionEvidence) (now : Timestamp host) : JsFields N :=
  spreadFields task (transitionFields host task status evidence now)

def transitionUnlocked (id : JsString) (status : GjcTeamTaskStatus)
    (token workerId : Option JsString) (evidenceInput : JsValue N) (now : Timestamp host) :
    Outcome N :=
  onTask host store id fun task =>
    let thrown (message : JsString) : Outcome N := ⟨[], .thrown message⟩
    let claim := getField task (js "claim")
    let owner := textField (fieldsOf claim) (js "owner")
    let current := getField task (js "status")
    if status = .pending then
      thrown (js "invalid_task_transition:" ++ id ++ js ":pending_requires_release")
    else if equalsText (js "completed") current ∨ equalsText (js "failed") current then
      thrown (js "task_terminal:" ++ id)
    else
      match claim, token.filter fun token => token ≠ [] with
      | .object claimed, some token =>
        if ¬ equalsText token (getField claimed (js "token")) then
          thrown (js "claim_token_mismatch:" ++ id)
        else if (workerId.filter fun worker => worker ≠ []).any fun worker =>
            !equalsText worker (getField claimed (js "owner")) then
          thrown (js "claim_owner_mismatch:" ++ id)
        else
          let written (evidence : Option CompletionEvidence) : Outcome N :=
            let updated := transitionedTask host task status evidence now
            withPath id
              ⟨writeTask updated :: if status.terminal then [.unclaim id] else [], .task updated⟩
          if status = .completed then
            match normalizeGjcTeamTaskCompletionEvidence host id owner evidenceInput now.1 with
            | .ok evidence => written (some evidence)
            | .error message => thrown message
          else written none
      | _, _ => thrown (js "claim_token_required:" ++ id)

def releasedTask (task : JsFields N) (updatedAt : Timestamp host) : JsFields N :=
  spreadFields task
    [(js "status", .string (js "pending")), (js "assignee", .undefined),
      (js "claim", .undefined), (js "version", nextVersion task),
      (js "updated_at", .string updatedAt.1)]

def releaseUnlocked (id token workerId : JsString) (updatedAt : Timestamp host) : Outcome N :=
  onTask host store id fun task =>
    let claim := fieldsOf (getField task (js "claim"))
    if equalsText token (getField claim (js "token")) ∧
        equalsText workerId (getField claim (js "owner")) then
      let updated := releasedTask host task updatedAt
      withPath id ⟨writeTask updated :: unclaimIfOwned store id token, .task updated⟩
    else ⟨[], .thrown (js "claim_token_mismatch:" ++ id)⟩

end Operations

/-- The operations, with what they are given. -/
inductive Operation (N : Type) (host : Host) where
  | create (subject description : JsString) (options : GjcTeamTaskMetadataInput)
      (createdAt updatedAt : Timestamp host)
  | update (id : JsString) (updates : TaskUpdates) (updatedAt : Timestamp host)
  | claim (worker : GjcTeamTaskWorker) (id : Option JsString) (input : ClaimInput host)
  | transition (id : JsString) (status : GjcTeamTaskStatus) (token workerId : Option JsString)
      (evidenceInput : JsValue N) (now : Timestamp host)
  | release (id token workerId : JsString) (updatedAt : Timestamp host)

def Operation.outcome [JsNumber N] [JsCounter N] {host : Host} (store : TeamStore N) :
    Operation N host → Outcome N
  | .create subject description options createdAt updatedAt =>
    createUnlocked host store subject description options createdAt updatedAt
  | .update id updates updatedAt => updateUnlocked host store id updates updatedAt
  | .claim worker id input => claimUnlocked host store worker id input
  | .transition id status token workerId evidenceInput now =>
    transitionUnlocked host store id status token workerId evidenceInput now
  | .release id token workerId updatedAt =>
    releaseUnlocked host store id token workerId updatedAt

end TeamTasks
end GajaeCode
