import GajaeCode.TeamClaims

/-! # Pending tasks and the claim files that are left

A claim is taken by creating its file, and only if there is none: whether the lease of a file
that is there has expired does not matter to `#claimUnlocked`, which throws what the writer
throws.  Operations that stop between their writes leave such files.  The runtime removes them before every claim
(`packages/coding-agent/src/gjc-runtime/team-workers.ts`,
`reconcileGjcTeamStaleClaimsUnlocked`), and after it pending tasks can be claimed.
-/
namespace GajaeCode
open JsString JsValue List Option Bool

namespace TeamTasks
variable {N : Type} [JsNumber N]
variable {worker : GjcTeamTaskWorker} {task : JsFields N}

inductive GjcTeamLivenessRecoveryReason where
  | workerLifecycleFailed | workerLifecycleStopped | staleHeartbeat | missingPane | claimExpired
  deriving DecidableEq

structure GjcTeamTaskClaim where
  owner : JsString
  token : JsString
  leasedUntil : JsString

def addRecoveryReason (reasons : List GjcTeamLivenessRecoveryReason)
    (reason : GjcTeamLivenessRecoveryReason) : List GjcTeamLivenessRecoveryReason :=
  if reason ∈ reasons then reasons else reasons ++ [reason]

def claimFromUnknown : JsValue N → Option GjcTeamTaskClaim
  | .object record =>
    let owner := textField record (js "owner")
    let token := textField record (js "token")
    let leasedUntil := textField record (js "leased_until")
    if owner ≠ [] ∧ token ≠ [] ∧ leasedUntil ≠ [] then some ⟨owner, token, leasedUntil⟩ else none
  | _ => none

/-- What the pass takes from outside: why workers are stale, which claims a continuation holds,
and the clock as it is read for each task, in milliseconds and as a text. -/
structure RecoveryInput (N : Type) (host : Host) where
  staleWorkers : JsString → List GjcTeamLivenessRecoveryReason
  hasActiveContinuationHold : JsFields N → GjcTeamTaskClaim → Bool
  nowMs : JsString → Int
  now : JsString → Timestamp host

variable [JsCounter N] (host : Host) (recovery : RecoveryInput N host)

def claimIsExpired (leasedUntil : JsString) (nowMs : Int) : Bool :=
  leasedUntil ≠ [] && match host.parseDate leasedUntil with
    | some timestamp => timestamp ≤ nowMs
    | none => false

variable (store : TeamStore N)

/-- `task.claim ?? claimFromUnknown(file)` -/
def recordedClaim (task : JsFields N) : Option GjcTeamTaskClaim :=
  match getField task (js "claim") with
  | .undefined | .null =>
    (store.claims.lookup (textField task (js "id"))).bind claimFromUnknown
  | claim =>
    some ⟨textField (fieldsOf claim) (js "owner"), textField (fieldsOf claim) (js "token"),
      textField (fieldsOf claim) (js "leased_until")⟩

def recoveryReasons (id : JsString) (claim : GjcTeamTaskClaim) :
    List GjcTeamLivenessRecoveryReason :=
  let reasons := recovery.staleWorkers claim.owner
  if claimIsExpired host claim.leasedUntil (recovery.nowMs id) then
    addRecoveryReason reasons .claimExpired
  else reasons

def recoverTask (task : JsFields N) : List (Write N) :=
  let id := textField task (js "id")
  let status := getField task (js "status")
  if equalsText (js "completed") status ∨ equalsText (js "failed") status then []
  else
    match recordedClaim store task with
    | none => []
    | some claim =>
      let reasons := recoveryReasons host recovery id claim
      if reasons = [] then []
      else if reasons = [.staleHeartbeat] ∧ recovery.hasActiveContinuationHold task claim then []
      else
        .unclaim id :: if equalsText (js "in_progress") status then
          [writeTask (normalizeGjcTeamTask (releasedTask host task (recovery.now id)))] else []

def recoverEach : List (JsFields N) → TeamStore N → TeamStore N
  | [], store => store
  | task :: tasks, store => recoverEach tasks (store.write (recoverTask host recovery store task))

def reconcileGjcTeamStaleClaimsUnlocked : TeamStore N :=
  recoverEach host recovery (store.list host) store

variable {host recovery}

/-! ## Claim files -/

omit [JsNumber N] [JsCounter N] in
theorem lookup_filter_ne {V : Type} (files : List (JsString × V)) (name id : JsString) :
    (files.filter fun file => file.1 ≠ name).lookup id =
      if id = name then none else files.lookup id := by
  induction files with
  | nil => simp
  | cons file files ih =>
    by_cases hname : file.1 = name
    · rw [filter_cons_of_neg (by simpa using hname), ih, lookup_cons]
      split_ifs with hid
      · rfl
      · rw [beq_eq_false_iff_ne.mpr (hname ▸ hid)]
    · rw [filter_cons_of_pos (by simpa using hname), lookup_cons, lookup_cons, ih]
      by_cases hid : id = file.1
      · subst hid
        rw [beq_self_eq_true, if_neg hname]
        exact (if_neg hname).symm
      · rw [beq_eq_false_iff_ne.mpr hid]

/-- The claim files are the ones claims write. -/
def ClaimFiles (host : Host) (store : TeamStore N) : Prop :=
  ∀ file ∈ store.claims, ∃ worker, ∃ input : ClaimInput host, file.2 = claimValue host worker input

/-- What it writes to a claim file is a claim. -/
def Write.OfClaims (host : Host) : Write N → Prop
  | .claim _ value => ∃ worker, ∃ input : ClaimInput host, value = claimValue host worker input
  | _ => True

theorem ofClaims_claimTask (task : JsFields N) (worker : GjcTeamTaskWorker)
    (input : ClaimInput host) :
    ∀ w ∈ (claimTask host store task worker input).writes, w.OfClaims host := by
  have hclaim : ∀ id, (Write.claim id (claimValue host worker input) : Write N).OfClaims host :=
    fun _ => ⟨worker, input, rfl⟩
  unfold claimTask withPath
  dsimp only
  split
  · exact forall_mem_nil _
  · split_ifs
    · exact forall_mem_nil _
    · exact forall_mem_nil _
    · split
      · exact forall_mem_singleton.mpr (hclaim _)
      · split
        · exact forall_mem_cons.mpr ⟨hclaim _, forall_mem_singleton.mpr trivial⟩
        · split
          · exact forall_mem_cons.mpr ⟨hclaim _, forall_mem_singleton.mpr trivial⟩
          · exact forall_mem_cons.mpr ⟨hclaim _, forall_mem_singleton.mpr trivial⟩
    · exact forall_mem_nil _

theorem ofClaims_outcome (op : Operation N host) :
    ∀ w ∈ (op.outcome store).writes, w.OfClaims host := by
  cases op with
  | create => exact forall_mem_singleton.mpr trivial
  | update id updates updatedAt =>
    rw [Operation.outcome, updateUnlocked, onTask]
    cases store.read host id with
    | none => exact forall_mem_nil _
    | some task =>
      dsimp only [withPath]
      split_ifs
      · exact forall_mem_singleton.mpr trivial
      · exact forall_mem_nil _
  | claim worker id? input =>
    rw [Operation.outcome, claimUnlocked]
    split
    · split
      · exact forall_mem_nil _
      · exact ofClaims_claimTask _ _ _ _
    · split
      · exact forall_mem_nil _
      · exact ofClaims_claimTask _ _ _ _
  | transition id status token workerId evidenceInput now =>
    rw [Operation.outcome]
    rcases transition_cases store id status token workerId evidenceInput now with
      ⟨message, hthrown⟩ | ⟨t, task, evidence, -, -, hwritten⟩
    · rw [hthrown]
      exact forall_mem_nil _
    · rw [hwritten]
      refine forall_mem_cons.mpr ⟨trivial, ?_⟩
      split_ifs
      · exact forall_mem_singleton.mpr trivial
      · exact forall_mem_nil _
  | release id token workerId updatedAt =>
    rw [Operation.outcome]
    rcases release_cases store id token workerId updatedAt with
      ⟨message, hthrown⟩ | ⟨task, -, hwritten⟩
    · rw [hthrown]
      exact forall_mem_nil _
    · rw [hwritten]
      refine forall_mem_cons.mpr ⟨trivial, ?_⟩
      unfold unclaimIfOwned
      split
      · split_ifs
        · exact forall_mem_singleton.mpr trivial
        · exact forall_mem_nil _
      · exact forall_mem_nil _

omit [JsNumber N] [JsCounter N] in
theorem ClaimFiles.write {store : TeamStore N} (h : ClaimFiles host store) {writes : List (Write N)}
    (hwrites : ∀ w ∈ writes, w.OfClaims host) : ClaimFiles host (store.write writes) := by
  unfold TeamStore.write
  induction writes generalizing store with
  | nil => exact h
  | cons w writes ih =>
    obtain ⟨hw, hwrites⟩ := forall_mem_cons.mp hwrites
    refine ih (fun file hfile => ?_) hwrites
    cases w with
    | task id value => exact h file hfile
    | unclaim id => exact h file (mem_of_mem_filter hfile)
    | claim id value =>
      rcases mem_setFile hfile with rfl | hold
      · exact hw
      · exact h file hold

theorem claimFiles_of_reaches {team : Team N} (h : Reaches host Team.start team) :
    ClaimFiles host team.store := by
  induction h with
  | refl => exact fun file hfile => nomatch hfile
  | tail _ hstep ih =>
    obtain ⟨op, k⟩ := hstep
    exact ih.write fun w hw => ofClaims_outcome _ op w (mem_of_mem_take hw)

section Reading
variable {team : Team N}

omit [JsCounter N] in
theorem Team.Sound.mem_list_iff (h : team.Sound host) {task : JsFields N} :
    task ∈ team.store.list host ↔ team.store.read host (textField task (js "id")) = some task := by
  refine ⟨fun hmem => ?_, mem_of_find?_eq_some⟩
  obtain ⟨⟨name, value⟩, hfile, hof⟩ := mem_list.mp hmem
  obtain ⟨fields, rfl, hsound, hof'⟩ := h.taskOfFile hfile
  obtain rfl := some.inj (hof'.symm.trans hof)
  rw [textField, hsound.normalize.id_eq]
  exact h.read_of_mem hfile

omit [JsCounter N] in
theorem Team.Sound.id_of_read (h : team.Sound host) {id : JsString} {task : JsFields N}
    (hread : team.store.read host id = some task) : textField task (js "id") = id := by
  rw [textField, (h.sound_of_read hread).id_eq]

def Team.set (team : Team N) (id : JsString) (record : JsFields N)
    (claims : List (JsString × JsValue N)) : Team N :=
  ⟨⟨setFile team.store.tasks id (asJson (.object (normalizeGjcTeamTask record))), claims⟩,
    team.issued⟩

omit [JsCounter N] in
/-- A sound record in the place of another one leaves a team sound, and the other records. -/
theorem Team.Sound.set (h : team.Sound host) {id : JsString} {record : JsFields N}
    (hname : id ∈ team.store.tasks.map Prod.fst)
    (hrecord : TeamTasks.Sound host (team.latest id) id record)
    (claims : List (JsString × JsValue N)) : (team.set id record claims).Sound host ∧
      ∀ id', id' ≠ id → (team.set id record claims).store.read host id' =
        team.store.read host id' := by
  have hsound : (team.set id record claims).Sound host := by
    refine ⟨?_, fun file hfile => ?_⟩
    · rw [Team.set, names_setFile_of_mem hname]
      exact h.names
    · rcases (mem_setFile_iff h.nodup).mp hfile with rfl | ⟨hmem, -⟩
      · exact ⟨storedFields record, rfl, hrecord.normalize.asJson⟩
      · exact h.records file hmem
  refine ⟨hsound, fun id' hother => ext fun task => ?_⟩
  constructor
  · intro hread
    obtain ⟨fields, hmem, rfl⟩ := hsound.file_of_read hread
    rcases (mem_setFile_iff h.nodup).mp hmem with heq | ⟨hold, -⟩
    · exact absurd (congrArg Prod.fst heq) hother
    · exact h.read_of_mem hold
  · intro hread
    obtain ⟨fields, hmem, rfl⟩ := h.file_of_read hread
    exact hsound.read_of_mem ((mem_setFile_iff h.nodup).mpr (.inr ⟨hmem, hother⟩))

end Reading

omit [JsNumber N] [JsCounter N] in
theorem completed_of_verified (h : isGjcTeamTaskCompletionVerified host task = true) :
    equalsText (js "completed") (getField task (js "status")) = true := by
  unfold isGjcTeamTaskCompletionVerified getGjcTeamTaskCompletionEvidenceFailure at h
  dsimp only at h
  by_contra hcompleted
  rw [if_pos hcompleted] at h
  cases h

omit [JsCounter N] in
/-- Eligibility depends on the other tasks through the verified ones only. -/
theorem eligibility_mono {tasks tasks' : List (JsFields N)}
    (hkept : ∀ other ∈ tasks, isGjcTeamTaskCompletionVerified host other = true → other ∈ tasks')
    (h : eligibility host task worker tasks = none) :
    eligibility host task worker tasks' = none := by
  unfold eligibility at h ⊢
  dsimp only at h ⊢
  split_ifs at h ⊢
  rw [findSome?_eq_none_iff] at h ⊢
  intro dependency hdependency
  have hfound := h dependency hdependency
  split_ifs at hfound with hany
  rw [if_pos]
  obtain ⟨other, hmem, hother⟩ := any_eq_true.mp hany
  have hverified := (of_decide_eq_true hother).2
  exact any_eq_true.mpr ⟨other, hkept other hmem hverified, hother⟩

/-- The recorded claim is absent, or its lease has expired. -/
def Free (host : Host) (store : TeamStore N) (task : JsFields N) (now : Int) : Prop :=
  ∀ lease, existingLease store task = some lease → expired host now lease = true

/-- The claim goes through. -/
def ClaimedBy (outcome : Outcome N) (worker : GjcTeamTaskWorker) (token : JsString) : Prop :=
  ∃ record, outcome.answer = .claimed record worker.id token

omit [JsNumber N] [JsCounter N] in
theorem safe_of_mem_names {team : Team N} (h : team.Sound host) {id : JsString}
    (hmem : id ∈ team.store.tasks.map Prod.fst) : isSafeText id = true ∧ id ≠ [] := by
  obtain ⟨n, hnames⟩ := h.names
  obtain ⟨i, -, rfl⟩ := mem_map.mp (hnames ▸ hmem)
  exact ⟨isSafeText_taskId (i + 1), cons_ne_nil _ _⟩

section
variable {team : Team N} {id : JsString} {input : ClaimInput host} (h : team.Sound host)
    (hread : team.store.read host id = some task)
    (heligible : eligibility host task worker (team.store.list host) = none)
    (hfree : Free host team.store task input.now)
include h hread heligible hfree

/-- What a claim of a task does that is eligible and free: all depends on its claim file. -/
theorem claimUnlocked_of_eligible : claimUnlocked host team.store worker (some id) input =
      if (team.store.claims.lookup id).isSome then
        ⟨[], .thrown (js "file already exists: " ++ host.claimPath id)⟩
      else
        match input.writeError with
        | some message => ⟨[.claim id (claimValue host worker input), .unclaim id], .thrown message⟩
        | none =>
          ⟨[.claim id (claimValue host worker input),
            writeTask (claimedTask host task worker input)],
            .claimed (claimedTask host task worker input) worker.id input.token⟩ := by
  obtain ⟨hsafe, hne⟩ := safe_of_mem_names h (h.mem_names_of_read hread)
  have hid := h.id_of_read hread
  have hsome : (some id).filter (fun id : JsString => id ≠ []) = some id := by
    simp [filter_some, hne]
  have hlease : ¬ (existingLease team.store task).any
      (fun lease => !expired host input.now lease) = true := by
    cases hexisting : existingLease team.store task with
    | none => exact false_ne_true
    | some lease => simp [hfree lease hexisting]
  have hfind : (team.store.list host).find? (fun task => textField task (js "id") = id) =
      some task := hread
  unfold claimUnlocked
  rw [hsome]
  dsimp only
  rw [hfind]
  dsimp only
  unfold claimTask withPath
  rw [hid, heligible]
  dsimp only
  rw [if_neg hlease, if_pos hsafe, TeamStore.read_apply_claim, hread]
  split_ifs
  · rfl
  · have hlist : (team.store.apply (.claim id (claimValue host worker input))).list host =
      team.store.list host := rfl
    cases input.writeError <;> simp only [hlist, heligible]

theorem claimedBy_iff :
    ClaimedBy (claimUnlocked host team.store worker (some id) input) worker input.token ↔
      team.store.claims.lookup id = none ∧ input.writeError = none := by
  rw [claimUnlocked_of_eligible h hread heligible hfree]
  cases team.store.claims.lookup id with
  | some value => exact iff_of_false (fun ⟨_, hanswer⟩ => nomatch hanswer) (fun h => nomatch h.1)
  | none =>
    rw [if_neg (by simp)]
    cases input.writeError with
    | some message =>
      exact iff_of_false (fun ⟨_, hanswer⟩ => nomatch hanswer) (fun h => nomatch h.2)
    | none => exact iff_of_true ⟨_, rfl⟩ ⟨rfl, rfl⟩

end

/-! ## What the pass leaves -/

section
omit [JsNumber N] [JsCounter N]

theorem map_recordedClaim (store : TeamStore N) (task : JsFields N) :
    (recordedClaim store task).map GjcTeamTaskClaim.leasedUntil = existingLease store task := by
  have hfile : ∀ value : JsValue N,
      (claimFromUnknown value).map GjcTeamTaskClaim.leasedUntil = claimRecordLease value := by
    intro value
    cases value with
    | object record =>
      rw [claimFromUnknown, claimRecordLease]
      split_ifs with hclaim hlease hlease
      · simp_all
      · rfl
      · rfl
      · simp_all
    | _ => rfl
  have hlookup : ∀ files : List (JsString × JsValue N), ∀ id,
      ((files.lookup id).bind claimFromUnknown).map GjcTeamTaskClaim.leasedUntil =
        (files.lookup id).bind claimRecordLease := by
    intro files id
    cases files.lookup id with
    | none => rfl
    | some value => exact hfile value
  unfold recordedClaim existingLease
  cases getField task (js "claim") with
  | undefined | null => exact hlookup _ _
  | _ => rfl

theorem eq_of_equalsText {text : JsString} {value : JsValue N}
    (h : equalsText text value = true) : value = .string text := by
  cases value with
  | string text' => rw [of_decide_eq_true (show decide (text' = text) = true from h)]
  | _ => cases h

end

section Recovering
open GjcTeamLivenessRecoveryReason
variable {host : Host} {recovery : RecoveryInput N host} {team : Team N}
variable {store : TeamStore N} {task : JsFields N}

/-- What the pass writes for a task: nothing, or it removes the claim file, and puts back a task
that is in progress. -/
theorem recoverTask_cases (recovery : RecoveryInput N host) (store : TeamStore N)
    (task : JsFields N) :
    recoverTask host recovery store task = [] ∨
    recoverTask host recovery store task = [.unclaim (textField task (js "id"))] ∨
    equalsText (js "in_progress") (getField task (js "status")) = true ∧
      recoverTask host recovery store task = [.unclaim (textField task (js "id")),
        writeTask (normalizeGjcTeamTask (releasedTask host task
          (recovery.now (textField task (js "id")))))] := by
  unfold recoverTask
  dsimp only
  split
  · exact .inl rfl
  · split
    · exact .inl rfl
    · split_ifs with _ _ hprogress
      · exact .inl rfl
      · exact .inl rfl
      · exact .inr (.inr ⟨hprogress, rfl⟩)
      · exact .inr (.inl rfl)

theorem recoverTask_expired {claim : GjcTeamTaskClaim}
    (hpending : equalsText (js "pending") (getField task (js "status")) = true)
    (hclaim : recordedClaim store task = some claim)
    (hexpired : expired host (recovery.nowMs (textField task (js "id"))) claim.leasedUntil = true) :
    recoverTask host recovery store task = [.unclaim (textField task (js "id"))] := by
  have hreasons : claimExpired ∈
      recoveryReasons host recovery (textField task (js "id")) claim := by
    have hexpired' : claimIsExpired host claim.leasedUntil
        (recovery.nowMs (textField task (js "id"))) = true := hexpired
    unfold recoveryReasons addRecoveryReason
    rw [if_pos hexpired']
    split_ifs with hmem
    · exact hmem
    · exact mem_append_right _ (mem_singleton.mpr rfl)
  have hsome : recoveryReasons host recovery (textField task (js "id")) claim ≠ [] :=
    ne_nil_of_mem hreasons
  have hnotAlone : ¬ (recoveryReasons host recovery (textField task (js "id")) claim =
      [.staleHeartbeat] ∧ recovery.hasActiveContinuationHold task claim = true) := by
    rintro ⟨halone, -⟩
    rw [halone] at hreasons
    cases mem_singleton.mp hreasons
  have hstatus := eq_of_equalsText hpending
  have hover : ¬ (equalsText (js "completed") (getField task (js "status")) = true ∨
      equalsText (js "failed") (getField task (js "status")) = true) := by
    rw [hstatus]
    rintro (hover | hover)
    · exact false_ne_true hover
    · exact false_ne_true hover
  have hprogress : ¬ equalsText (js "in_progress") (getField task (js "status")) = true := by
    rw [hstatus]
    exact false_ne_true
  unfold recoverTask
  dsimp only
  rw [if_neg hover, hclaim]
  dsimp only
  rw [if_neg hsome, if_neg hnotAlone, if_neg hprogress]

/-- What the pass keeps: the records of the tasks that are not in progress, and claim files at
most. -/
structure Recovering (host : Host) (team : Team N) (store : TeamStore N) : Prop where
  sound : (⟨store, team.issued⟩ : Team N).Sound host
  names : store.tasks.map Prod.fst = team.store.tasks.map Prod.fst
  reads : ∀ id task, team.store.read host id = some task →
    ¬ equalsText (js "in_progress") (getField task (js "status")) = true →
    store.read host id = some task
  claims : ∀ id, store.claims.lookup id = none ∨
    store.claims.lookup id = team.store.claims.lookup id

omit [JsCounter N] in
theorem Recovering.refl (h : team.Sound host) : Recovering host team team.store :=
  ⟨h, rfl, fun _ _ hread _ => hread, fun _ => .inr rfl⟩

omit [JsNumber N] [JsCounter N] in
theorem lookup_unclaim (store : TeamStore N) (name id : JsString) :
    (store.apply (.unclaim name)).claims.lookup id =
      if id = name then none else store.claims.lookup id :=
  lookup_filter_ne store.claims name id

omit [JsCounter N] in
theorem Recovering.unclaim (h : Recovering host team store) (name : JsString) :
    Recovering host team (store.apply (.unclaim name)) := by
  refine ⟨⟨h.sound.names, h.sound.records⟩, h.names, h.reads, fun id => ?_⟩
  rw [lookup_unclaim]
  split_ifs
  · exact .inl rfl
  · exact h.claims id

theorem Recovering.putBack (h : Recovering host team store) (hteam : team.Sound host)
    {id : JsString} (hread : team.store.read host id = some task)
    (hprogress : equalsText (js "in_progress") (getField task (js "status")) = true)
    (updatedAt : Timestamp host) :
    Recovering host team
      (store.apply (writeTask (normalizeGjcTeamTask (releasedTask host task updatedAt)))) := by
  have hrecord := ((hteam.sound_of_read hread).released updatedAt).normalize
  have hid : textField (normalizeGjcTeamTask (releasedTask host task updatedAt)) (js "id") =
      id := by
    rw [textField, hrecord.id_eq]
  have hname : id ∈ store.tasks.map Prod.fst := h.names ▸ hteam.mem_names_of_read hread
  obtain ⟨hsound, hothers⟩ := h.sound.set hname hrecord store.claims
  rw [writeTask, hid]
  refine ⟨hsound, (names_setFile_of_mem hname).trans h.names, fun id' other hother hidle => ?_,
    h.claims⟩
  have hne : id' ≠ id := by
    rintro rfl
    obtain rfl := some.inj (hother.symm.trans hread)
    exact hidle hprogress
  exact (hothers id' hne).trans (h.reads id' other hother hidle)

theorem Recovering.step {store : TeamStore N} (h : Recovering host team store)
    (hteam : team.Sound host) {task : JsFields N} (hmem : task ∈ team.store.list host) :
    Recovering host team (store.write (recoverTask host recovery store task)) := by
  have hread := hteam.mem_list_iff.mp hmem
  rcases recoverTask_cases recovery store task with hnone | hunclaim | ⟨hprogress, hback⟩
  · rw [hnone]
    exact h
  · rw [hunclaim]
    exact h.unclaim _
  · rw [hback]
    exact (h.unclaim _).putBack hteam hread hprogress _

theorem Recovering.run (h : Recovering host team store) (hteam : team.Sound host)
    {tasks : List (JsFields N)} (hmem : ∀ task ∈ tasks, task ∈ team.store.list host) :
    Recovering host team (recoverEach host recovery tasks store) := by
  induction tasks generalizing store with
  | nil => exact h
  | cons task tasks ih =>
    obtain ⟨htask, htasks⟩ := forall_mem_cons.mp hmem
    exact ih (h.step hteam htask) htasks

omit [JsNumber N] [JsCounter N] in
theorem lookup_write_of_not_claim {id : JsString} (h : store.claims.lookup id = none)
    {writes : List (Write N)} (hwrites : ∀ name value, .claim name value ∉ writes) :
    (store.write writes).claims.lookup id = none := by
  unfold TeamStore.write
  induction writes generalizing store with
  | nil => exact h
  | cons w writes ih =>
    refine ih ?_ fun name value hmem => hwrites name value (mem_cons_of_mem _ hmem)
    cases w with
    | task name value => exact h
    | unclaim name => rw [lookup_unclaim, h, ite_self]
    | claim name value => exact absurd mem_cons_self (hwrites name value)

theorem claim_not_mem_recoverTask (store : TeamStore N) (task : JsFields N) (name : JsString)
    (value : JsValue N) : .claim name value ∉ recoverTask host recovery store task := by
  intro hmem
  rcases recoverTask_cases recovery store task with hnone | hunclaim | ⟨-, hback⟩
  · rw [hnone] at hmem
    cases hmem
  · rw [hunclaim] at hmem
    cases mem_singleton.mp hmem
  · rw [hback] at hmem
    rcases mem_cons.mp hmem with h | h
    · cases h
    · cases mem_singleton.mp h

theorem lookup_recoverEach {id : JsString} (h : store.claims.lookup id = none)
    (tasks : List (JsFields N)) :
    (recoverEach host recovery tasks store).claims.lookup id = none := by
  induction tasks generalizing store with
  | nil => exact h
  | cons task tasks ih =>
    exact ih (lookup_write_of_not_claim h (claim_not_mem_recoverTask store task))

omit [JsNumber N] [JsCounter N] in
theorem ClaimFiles.lookup_of_unrecorded (h : ClaimFiles host team.store)
    (hclaim : recordedClaim team.store task = none) :
    team.store.claims.lookup (textField task (js "id")) = none := by
  have hbind : (team.store.claims.lookup (textField task (js "id"))).bind claimFromUnknown =
      none := by
    unfold recordedClaim at hclaim
    split at hclaim
    · exact hclaim
    · exact hclaim
    · cases hclaim
  cases hlookup : team.store.claims.lookup (textField task (js "id")) with
  | none => rfl
  | some value =>
    obtain ⟨before, after, hfiles, -⟩ := lookup_eq_some_iff.mp hlookup
    obtain ⟨worker, input, hvalue⟩ := h _ (hfiles ▸ mem_append_right _ mem_cons_self)
    have hsome : claimFromUnknown (claimValue host worker input : JsValue N) =
        some ⟨worker.id, input.token, input.leasedUntil.1⟩ := by
      refine if_pos ⟨?_, ?_, ?_⟩
      · intro hnil
        have hsafe := worker.id_safe
        rw [show worker.id = [] from hnil] at hsafe
        cases hsafe
      · intro hnil
        exact input.token_ne_nil ((congrArg trim hnil).trans rfl)
      · intro hnil
        exact input.leasedUntil.2.2 ((congrArg trim hnil).trans rfl)
    rw [hlookup, bind_some, show value = _ from hvalue, hsome] at hbind
    cases hbind

theorem lookup_recoverTask (hfiles : ClaimFiles host team.store)
    (hpending : equalsText (js "pending") (getField task (js "status")) = true)
    (hfree : Free host team.store task (recovery.nowMs (textField task (js "id"))))
    (h : Recovering host team store) :
    (store.write (recoverTask host recovery store task)).claims.lookup
      (textField task (js "id")) = none := by
  have hgone : store.claims.lookup (textField task (js "id")) = none →
      (store.write (recoverTask host recovery store task)).claims.lookup
        (textField task (js "id")) = none :=
    fun hnone => lookup_write_of_not_claim hnone (claim_not_mem_recoverTask store task)
  rcases h.claims (textField task (js "id")) with hnone | hsame
  · exact hgone hnone
  · have hrecorded : recordedClaim store task = recordedClaim team.store task := by
      unfold recordedClaim
      rw [hsame]
    cases hclaim : recordedClaim team.store task with
    | none => exact hgone (hsame.trans (hfiles.lookup_of_unrecorded hclaim))
    | some claim =>
      have hlease : existingLease team.store task = some claim.leasedUntil := by
        rw [← map_recordedClaim, hclaim]
        rfl
      rw [recoverTask_expired hpending (hrecorded.trans hclaim) (hfree _ hlease)]
      exact (lookup_unclaim store _ _).trans (if_pos rfl)

/-- The pass removes the claim file of a pending task that is free when it comes to it. -/
theorem lookup_reconcile (hteam : team.Sound host) (hfiles : ClaimFiles host team.store)
    {id : JsString} (hread : team.store.read host id = some task)
    (hpending : equalsText (js "pending") (getField task (js "status")) = true)
    (hfree : Free host team.store task (recovery.nowMs id)) :
    (reconcileGjcTeamStaleClaimsUnlocked host recovery team.store).claims.lookup id = none := by
  have hid := hteam.id_of_read hread
  have hvisit : ∀ tasks : List (JsFields N), (∀ t ∈ tasks, t ∈ team.store.list host) →
      task ∈ tasks → ∀ store, Recovering host team store →
        (recoverEach host recovery tasks store).claims.lookup id = none := by
    intro tasks
    induction tasks with
    | nil => exact fun _ hmem => nomatch hmem
    | cons t tasks ih =>
      intro hall hmem store hrecovering
      obtain ⟨ht, hall⟩ := forall_mem_cons.mp hall
      rcases mem_cons.mp hmem with rfl | hmem
      · refine lookup_recoverEach ?_ tasks
        rw [← hid]
        exact lookup_recoverTask hfiles hpending (hid.symm ▸ hfree) hrecovering
      · exact ih hall hmem _ (hrecovering.step hteam ht)
  exact hvisit _ (fun _ h => h) (hteam.mem_list_iff.mpr (hid.symm ▸ hread)) _ (.refl hteam)

omit [JsCounter N] in
theorem Recovering.eligible (h : Recovering host team store) (hteam : team.Sound host)
    {worker : GjcTeamTaskWorker}
    (heligible : eligibility host task worker (team.store.list host) = none) :
    eligibility host task worker (store.list host) = none := by
  refine eligibility_mono (fun other hmem hverified => ?_) heligible
  have hidle : ¬ equalsText (js "in_progress") (getField other (js "status")) = true := by
    rw [eq_of_equalsText (completed_of_verified hverified)]
    exact false_ne_true
  exact h.sound.mem_list_iff.mpr (h.reads _ _ (hteam.mem_list_iff.mp hmem) hidle)

end Recovering

variable {host : Host}

omit [JsNumber N] [JsCounter N] in
theorem expired_mono {lease : JsString} {now now' : Int} (hnow : now ≤ now')
    (h : expired host now lease = true) : expired host now' lease = true := by
  unfold expired at h ⊢
  rw [and_eq_true] at h ⊢
  refine ⟨h.1, ?_⟩
  have hparsed := h.2
  cases hdate : host.parseDate lease with
  | none =>
    rw [hdate] at hparsed
    cases hparsed
  | some time =>
    rw [hdate] at hparsed
    exact decide_eq_true (Int.le_trans (of_decide_eq_true hparsed) hnow)

/-- A claim stops after it has made its file. -/
def leftoverTeam : Team Nat := (Team.start.run sampleCreate 1).run sampleClaim 1

theorem reaches_leftoverTeam : Reaches sampleHost Team.start leftoverTeam :=
  (Relation.ReflTransGen.single (.run sampleCreate 1)).tail (.run sampleClaim 1)

def leftoverTask : JsFields Nat := (leftoverTeam.store.read sampleHost (js "task-1")).getD []

theorem read_leftoverTask :
    leftoverTeam.store.read sampleHost (js "task-1") = some leftoverTask := by
  have hsome : (leftoverTeam.store.read sampleHost (js "task-1")).isSome = true := by
    decide +kernel
  unfold leftoverTask
  cases hread : leftoverTeam.store.read sampleHost (js "task-1") with
  | none =>
    rw [hread] at hsome
    cases hsome
  | some task => rfl

def sampleWorker : GjcTeamTaskWorker :=
  ⟨js "worker-1", js "executor", js "executor", isSafeText_worker⟩

/-- A claim at the time at which the lease of the file ends. -/
def laterInput : ClaimInput sampleHost :=
  ⟨js "token-2", by decide, 1767225600000, sampleTime, sampleTime, none⟩

theorem eligible_leftoverTask :
    eligibility sampleHost leftoverTask sampleWorker (leftoverTeam.store.list sampleHost) =
      none := by
  decide +kernel

theorem free_leftoverTask : Free sampleHost leftoverTeam.store leftoverTask 1767225600000 := by
  have hall : (existingLease leftoverTeam.store leftoverTask).all
      (expired sampleHost 1767225600000) = true := by decide +kernel
  intro lease hlease
  rw [hlease] at hall
  exact hall

def sampleRecovery : RecoveryInput Nat sampleHost :=
  ⟨fun _ => [], fun _ _ => false, fun _ => 1767225600000, fun _ => sampleTime⟩

omit [JsCounter N] in
theorem verified_of_eligible {tasks : List (JsFields N)}
    (h : eligibility host task worker tasks = none) :
    ∀ dependency ∈ textsOf (getField task (js "depends_on")), ∃ other ∈ tasks,
      textField other (js "id") = dependency ∧
        isGjcTeamTaskCompletionVerified host other = true := by
  intro dependency hdependency
  unfold eligibility at h
  dsimp only at h
  split_ifs at h
  have hfound := findSome?_eq_none_iff.mp h dependency hdependency
  split_ifs at hfound with hany
  obtain ⟨other, hmem, hother⟩ := any_eq_true.mp hany
  exact ⟨other, hmem, of_decide_eq_true hother⟩

/-- **What a claimed task depends on is completed with verified evidence**, when it is claimed
and in all that comes after. -/
theorem dependencies_stay_verified {team later : Team N} (h : Reaches host Team.start team)
    (hlater : Reaches host team later) {worker : GjcTeamTaskWorker} {id : Option JsString}
    {input : ClaimInput host} {record : JsFields N} {workerId token : JsString}
    (hclaimed : (claimUnlocked host team.store worker id input).answer =
      .claimed record workerId token) :
    ∀ dependency ∈ textsOf (getField record (js "depends_on")), ∃ other,
      later.store.read host dependency = some other ∧
        isGjcTeamTaskCompletionVerified host other = true := by
  intro dependency hdependency
  rcases claim_cases team.store worker id input with ⟨-, hrefused⟩ | ⟨_, task, hclaims, heq⟩
  · exact absurd hclaimed (hrefused _ _ _)
  rw [heq] at hclaimed
  cases hclaimed
  rw [getField_claimed_of_not_mem (by decide)] at hdependency
  obtain ⟨other, hmem, hid, hverified⟩ := verified_of_eligible hclaims.eligible _ hdependency
  have hstatus : team.status host dependency = some (.string (js "completed")) := by
    rw [Team.status, ← hid, (sound_of_reaches h).mem_list_iff.mp hmem, map_some,
      eq_of_equalsText (completed_of_verified hverified)]
  have hcompleted : later.status host dependency = some (.string (js "completed")) := by
    induction hlater with
    | refl => exact hstatus
    | tail hbefore hstep ih =>
      obtain ⟨op, k⟩ := hstep
      exact (sound_of_reaches (h.trans hbefore)).status_run (s := .completed) ih rfl op k
  obtain ⟨last, hread, hlast⟩ := map_eq_some_iff.mp hcompleted
  have hsound := (sound_of_reaches (h.trans hlater)).sound_of_read hread
  exact ⟨last, hread, isVerified_of_sound hsound hlast⟩

def sampleDependent : Operation Nat sampleHost :=
  .create (js "subject") (js "description") ⟨none, none, none, none, some [js "task-1"], none⟩
    sampleTime sampleTime

/-- The team after its task is completed, and one that depends on it created. -/
def dependentTeam : Team Nat := (claimedTeam.run sampleComplete 2).run sampleDependent 1

/-- The tasks of the team, before they are sorted. -/
def dependentTasks : List (JsFields Nat) :=
  dependentTeam.store.tasks.filterMap TeamStore.taskOfFile

/-- The claim of `task-2` needs `task-1`, which is done and stays so. -/
theorem dependencies_stay_verified_dependent : ∃ record : JsFields Nat,
    (claimUnlocked sampleHost dependentTeam.store sampleWorker (some (js "task-2"))
      laterInput).answer = .claimed record (js "worker-1") (js "token-2") ∧
    textsOf (getField record (js "depends_on")) = [js "task-1"] ∧ ∃ other,
      (dependentTeam.run sampleCreate 1).store.read sampleHost (js "task-1") = some other ∧
        isGjcTeamTaskCompletionVerified sampleHost other = true := by
  have hreaches : Reaches sampleHost Team.start dependentTeam :=
    (reaches_claimedTeam.tail (.run sampleComplete 2)).tail (.run sampleDependent 1)
  have hsound := sound_of_reaches hreaches
  obtain ⟨task, hlast⟩ := isSome_iff_exists.mp
    (show dependentTasks.getLast?.isSome = true by decide +kernel)
  have htask : task = dependentTasks.getLast?.getD [] := by rw [hlast, getD_some]
  have hmem : task ∈ dependentTeam.store.list sampleHost :=
    mem_list.mpr (mem_filterMap.mp (mem_of_getLast? hlast))
  have hread : dependentTeam.store.read sampleHost (js "task-2") = some task := by
    rw [← hsound.mem_list_iff.mp hmem]
    congr 1
    rw [htask]
    decide +kernel
  have heligible : eligibility sampleHost task sampleWorker
      (dependentTeam.store.list sampleHost) = none := by
    have hbefore : eligibility sampleHost task sampleWorker dependentTasks = none := by
      rw [htask]
      decide +kernel
    exact eligibility_mono (fun other hother _ => mem_list.mpr (mem_filterMap.mp hother)) hbefore
  have hnew : existingLease dependentTeam.store task = none := by
    rw [htask]
    decide +kernel
  have hclaims : (claimUnlocked sampleHost dependentTeam.store sampleWorker (some (js "task-2"))
      laterInput).answer = .claimed (claimedTask sampleHost task sampleWorker laterInput)
        (js "worker-1") (js "token-2") := by
    rw [claimUnlocked_of_eligible hsound hread heligible
      (fun lease hlease => nomatch hnew.symm.trans hlease), if_neg (by decide +kernel)]
    rfl
  have hdepends : textsOf (getField (claimedTask sampleHost task sampleWorker laterInput)
      (js "depends_on")) = [js "task-1"] := by
    rw [htask]
    decide +kernel
  exact ⟨_, hclaims, hdepends, dependencies_stay_verified hreaches
    (.single (.run sampleCreate 1)) hclaims _ (hdepends ▸ mem_singleton_self _)⟩

end TeamTasks
end GajaeCode
