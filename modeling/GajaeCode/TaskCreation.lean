import GajaeCode.Runs
import GajaeCode.TeamClaims

/-! # Tasks that are created

`create` of `packages/coding-agent/src/gjc-runtime/team-store.ts` in two steps: a call counts the
tasks, and later the file of its task is written.  Under the fence a call ends before the next
one starts; the calls of one mutation capability count and write in any order.

The id of a task is one more than the number of tasks, so a call writes a new file as long as no
file has a number that is still to come, and no call counts before the one before it has written.
-/
namespace GajaeCode
open JsString JsValue List

namespace TeamTasks
variable {N : Type} [JsNumber N] [JsCounter N] {host : Host}

/-- The arguments of a call of `create`, and the clock as it reads it. -/
structure Creation (host : Host) where
  subject : JsString
  description : JsString
  options : GjcTeamTaskMetadataInput
  createdAt : Timestamp host
  updatedAt : Timestamp host

/-- A call counts the tasks, or a write that is under way comes through. -/
inductive CreateEvent (host : Host) where
  | count (creation : Creation host)
  | write (i : Nat)

/-- The files, the writes under way, and the files of all calls that have counted. -/
structure Creating (N : Type) where
  store : TeamStore N
  underWay : List (Write N)
  created : List (JsString × JsValue N)

def Write.taskFile : Write N → Option (JsString × JsValue N)
  | .task id value => some (id, value)
  | _ => none

def Creation.writes (creation : Creation host) (store : TeamStore N) : List (Write N) :=
  (createUnlocked host store creation.subject creation.description creation.options
    creation.createdAt creation.updatedAt).writes

namespace Creating

def step (state : Creating N) : CreateEvent host → Creating N
  | .count creation =>
    let writes := creation.writes state.store
    ⟨state.store, state.underWay ++ writes, state.created ++ writes.filterMap Write.taskFile⟩
  | .write i =>
    ⟨state.store.write state.underWay[i]?.toList, state.underWay.eraseIdx i, state.created⟩

/-- The calls from the files of a store on. -/
def run (store : TeamStore N) (events : List (CreateEvent host)) : Creating N :=
  Runs.run step ⟨store, [], []⟩ events

end Creating

/-- From `n` writes under way on, every write comes through once. -/
def Settles : Nat → List (CreateEvent host) → Prop
  | n, [] => n = 0
  | n, .count _ :: events => Settles (n + 1) events
  | n, .write i :: events => i < n ∧ Settles (n - 1) events

/-- One call after the other. -/
def fenced (creations : List (Creation host)) : List (CreateEvent host) :=
  creations.flatMap fun creation => [.count creation, .write 0]

/-- Every call has written a new file, under an id of its own, and no task is lost. -/
structure NoneLost (store : TeamStore N) (final : Creating N) : Prop where
  distinct : (final.created.map Prod.fst).Nodup
  fresh : ∀ file ∈ final.created, file.1 ∉ store.tasks.map Prod.fst
  kept : ∀ file ∈ store.tasks ++ final.created, file ∈ final.store.tasks

/-- The file a call writes. -/
def Creation.file (creation : Creation host) (store : TeamStore N) : JsString × JsValue N :=
  let id := taskName (store.list host).length
  (id, .object (storedFields (newTask host id creation.subject creation.description
    creation.options creation.createdAt creation.updatedAt)))

section
variable (creation : Creation host)
include creation

omit [JsCounter N] in
theorem Creation.writes_eq (store : TeamStore N) :
    creation.writes store = [.task (creation.file store).1 (creation.file store).2] := by
  show [writeTask _] = _
  rw [writeTask, textField, getField_newTask]
  rfl

theorem Creation.taskOfFile_isSome (store : TeamStore N) :
    (TeamStore.taskOfFile (creation.file store)).isSome := by
  have hsuffix : ¬ (js ".evidence").isSuffixOf (creation.file store).1 = true := by
    intro hsuffix
    have hdot : 0x2e ∈ (creation.file store).1 :=
      (isSuffixOf_iff_suffix.mp hsuffix).subset (by decide)
    exact (unit_taskId ((store.list host).length + 1) 0x2e hdot).2 rfl
  have hsound : Sound host none (taskName (store.list host).length) (storedFields (newTask (N := N)
      host (taskName (store.list host).length) creation.subject creation.description
      creation.options creation.createdAt creation.updatedAt)) := sound_newTask.normalize.asJson
  show (if (js ".evidence").isSuffixOf (creation.file store).1 then none
    else if taskRecord (storedFields _) then some (normalizeGjcTeamTask _) else none).isSome
  rw [if_neg hsuffix, if_pos (taskRecord_of_sound hsound)]
  rfl

/-- What a call leaves that writes a new file: there is one file more, and one task. -/
theorem Creation.run_fenced {store : TeamStore N}
    (hnew : (creation.file store).1 ∉ store.tasks.map Prod.fst) :
    let store' : TeamStore N := { store with tasks := store.tasks ++ [creation.file store] }
    Creating.run store (fenced [creation]) = ⟨store', [], [creation.file store]⟩ ∧
      (store'.list host).length = (store.list host).length + 1 := by
  intro store'
  constructor
  · have hwrites := creation.writes_eq store
    have hwritten : store.apply (.task (creation.file store).1 (creation.file store).2) =
        store' := by
      show ({ store with tasks := _ } : TeamStore N) = _
      rw [setFile_of_not_mem hnew]
    show Creating.step (Creating.step ⟨store, [], []⟩ (.count creation))
      (CreateEvent.write 0 : CreateEvent host) = _
    unfold Creating.step
    dsimp only
    rw [hwrites]
    exact congrArg (fun store => (⟨store, [], [creation.file _]⟩ : Creating N)) hwritten
  · obtain ⟨task, htask⟩ := Option.isSome_iff_exists.mp (creation.taskOfFile_isSome store)
    unfold TeamStore.list
    rw [length_mergeSort, length_mergeSort, filterMap_append, length_append,
      filterMap_cons_some htask]
    rfl

/-! ## All calls -/

theorem fenced_cons (creations : List (Creation host)) :
    fenced (creation :: creations) = fenced [creation] ++ fenced creations := by
  rw [← singleton_append, fenced, flatMap_append]
  rfl

end

omit [JsCounter N] in
theorem created_run (store : TeamStore N) (underWay : List (Write N))
    (created : List (JsString × JsValue N)) (events : List (CreateEvent host)) :
    Runs.run Creating.step ⟨store, underWay, created⟩ events =
      let final := Runs.run Creating.step ⟨store, underWay, []⟩ events
      { final with created := created ++ final.created } := by
  induction events generalizing store underWay created with
  | nil => simp
  | cons event events ih =>
    rw [Runs.run_cons, Runs.run_cons]
    cases event with
    | count creation =>
      rw [Creating.step, Creating.step, ih, ih _ _ ([] ++ _)]
      simp
    | write i => exact ih _ _ created

theorem Creation.run_cons (creation : Creation host) {store : TeamStore N}
    (hnew : (creation.file store).1 ∉ store.tasks.map Prod.fst)
    (events : List (CreateEvent host)) :
    let store' : TeamStore N := { store with tasks := store.tasks ++ [creation.file store] }
    Creating.run store (fenced [creation] ++ events) =
      let final := Creating.run store' events
      { final with created := creation.file store :: final.created } := by
  intro store'
  rw [Creating.run, Runs.run_append]
  show Runs.run _ (Creating.run store (fenced [creation])) events = _
  rw [(creation.run_fenced hnew).1, created_run]
  rfl

/-- **Calls that write new files one after the other** lose nothing. -/
theorem noneLost_of_fenced {store : TeamStore N} {creations : List (Creation host)}
    (hnew : ∀ i < creations.length,
      taskName ((store.list host).length + i) ∉ store.tasks.map Prod.fst) :
    NoneLost store (Creating.run store (fenced creations)) := by
  induction creations generalizing store with
  | nil => exact ⟨nodup_nil, fun file hfile => (by cases hfile), fun file hfile => by
      simpa [Creating.run, fenced] using hfile⟩
  | cons creation creations ih =>
    have hfirst : (creation.file store).1 ∉ store.tasks.map Prod.fst :=
      hnew 0 (Nat.succ_pos _)
    rw [fenced_cons, creation.run_cons hfirst]
    obtain ⟨-, hlength⟩ := creation.run_fenced hfirst
    set store' : TeamStore N := { store with tasks := store.tasks ++ [creation.file store] }
    have hrest : NoneLost store' (Creating.run store' (fenced creations)) := by
      refine ih fun i hi hmem => ?_
      rw [hlength, Nat.add_right_comm, Nat.add_assoc] at hmem
      rw [map_append, mem_append] at hmem
      rcases hmem with hmem | hmem
      · exact hnew (i + 1) (Nat.succ_lt_succ hi) hmem
      · have hname := taskName_injective (mem_singleton.mp hmem)
        omega
    refine ⟨?_, ?_, ?_⟩
    · rw [map_cons, nodup_cons]
      refine ⟨fun hmem => ?_, hrest.distinct⟩
      obtain ⟨file, hfile, hsame⟩ := mem_map.mp hmem
      refine hrest.fresh file hfile ?_
      rw [hsame, map_append, mem_append]
      exact .inr mem_cons_self
    · rintro file (_ | ⟨_, hfile⟩)
      · exact hfirst
      · intro hmem
        refine hrest.fresh file hfile ?_
        rw [map_append]
        exact mem_append_left _ hmem
    · intro file hfile
      refine hrest.kept file ?_
      rwa [append_assoc]

/-- **Where nothing is lost** no call counts while another one is under way, and no file has a
number that is still to come. -/
theorem fenced_of_noneLost {store : TeamStore N} {events : List (CreateEvent host)}
    (hsettles : Settles 0 events) (h : NoneLost store (Creating.run store events)) :
    ∃ creations, events = fenced creations ∧ ∀ i < creations.length,
      taskName ((store.list host).length + i) ∉ store.tasks.map Prod.fst := by
  match events with
  | [] => exact ⟨[], rfl, fun i hi => absurd hi (Nat.not_lt_zero i)⟩
  | .write i :: events => exact absurd hsettles.1 (Nat.not_lt_zero i)
  | [.count creation] => exact absurd hsettles Nat.one_ne_zero
  | .count creation :: .count creation' :: events =>
    -- both calls have counted the same tasks
    have hcreated : ∃ rest, (Creating.run store (.count creation :: .count creation' ::
        events)).created = creation.file store :: creation'.file store :: rest := by
      rw [Creating.run, Runs.run_cons, Runs.run_cons, Creating.step, Creating.step,
        creation.writes_eq, creation'.writes_eq, created_run]
      exact ⟨_, rfl⟩
    obtain ⟨rest, hcreated⟩ := hcreated
    have hdistinct := h.distinct
    rw [hcreated, map_cons, map_cons, nodup_cons] at hdistinct
    exact absurd mem_cons_self hdistinct.1
  | .count creation :: .write i :: events =>
    obtain rfl : i = 0 := Nat.lt_one_iff.mp hsettles.1
    have hrun : CreateEvent.count creation :: .write 0 :: events =
        fenced [creation] ++ events := rfl
    have hfirst : (creation.file store).1 ∉ store.tasks.map Prod.fst := by
      refine h.fresh _ ?_
      rw [Creating.run, Runs.run_cons, Runs.run_cons, Creating.step, creation.writes_eq,
        Creating.step, created_run]
      exact mem_cons_self
    obtain ⟨-, hlength⟩ := creation.run_fenced hfirst
    rw [hrun, creation.run_cons hfirst] at h
    set store' : TeamStore N := { store with tasks := store.tasks ++ [creation.file store] }
    have hdistinct := nodup_cons.mp h.distinct
    have hrest : NoneLost store' (Creating.run store' events) := by
      refine ⟨hdistinct.2, fun file hfile hmem => ?_, fun file hfile => h.kept file ?_⟩
      · rw [map_append, mem_append] at hmem
        rcases hmem with hmem | hmem
        · exact h.fresh file (mem_cons_of_mem _ hfile) hmem
        · exact hdistinct.1 (mem_singleton.mp hmem ▸ mem_map_of_mem hfile)
      · rwa [append_assoc] at hfile
    obtain ⟨creations, rfl, hnames⟩ := fenced_of_noneLost hsettles.2 hrest
    refine ⟨creation :: creations, rfl, fun i hi => ?_⟩
    cases i with
    | zero => exact hfirst
    | succ i =>
      intro hmem
      refine hnames i (Nat.lt_of_succ_lt_succ hi) ?_
      rw [hlength, map_append, mem_append, Nat.add_right_comm, Nat.add_assoc]
      exact .inl hmem

def sampleCreation : Creation sampleHost :=
  ⟨js "subject", js "description", ⟨none, none, none, none, none, none⟩, sampleTime, sampleTime⟩

/-- One task that was brought in as `task-2`. -/
def importedStore : TeamStore Nat :=
  ⟨[(js "task-2", .object (storedFields (newTask sampleHost (js "task-2") (js "subject")
    (js "description") sampleCreation.options sampleTime sampleTime)))], []⟩

end TeamTasks
end GajaeCode
