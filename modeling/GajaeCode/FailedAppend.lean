import GajaeCode.InsertionMap
import GajaeCode.Runs
import GajaeCode.SessionManager

/-! # Appending to a session that cannot be written

`packages/coding-agent/src/session/session-manager.ts`: `#appendEntry` and what it keeps in
memory, over a storage whose calls may throw.  The entry goes into memory before it is written,
and nothing takes it out again.  What a failed append leaves out is the usage it would have
counted and the label it would have set (`failed_append_keeps_entry`).
-/
namespace GajaeCode
open JsString List

/-- `UsageStatistics`, and what a `Usage` adds to it: `premiumRequests ?? 0` and `cost.total`. -/
structure UsageStatistics (N : Type) where
  (input output cacheRead cacheWrite premiumRequests cost : N)
deriving DecidableEq

/-- What the session manager asks of entries it keeps in memory. -/
structure ResidentCodec (M B N : Type) extends EntryCodec M B where
  /-- An entry normalized and prepared for memory, unless that throws. -/
  prepareEntryForResident : SessionEntry M B → Option (SessionEntry M B)
  /-- `message.usage` of an assistant message -/
  usage : M → UsageStatistics N
  /-- `getTaskToolUsage` of the result of a task tool -/
  taskToolUsage : M → Option (UsageStatistics N)

/-- Which synchronous calls of the storage throw, and what they leave. -/
structure StorageFaults (M B : Type) where
  rewrite : Option (Option PersistWriter × SessionDisk M B)
  openWriter : Bool
  write : Option (SessionDisk M B)

/-- `SessionManager` with its indexes. -/
structure ResidentSession (M B N : Type) where
  /-- `this.persist && this.#sessionFile` -/
  persists : Bool
  manager : SessionManager M B
  byId : InsertionMap JsString (SessionEntry M B)
  leafId : Option JsString
  labelsById : JsString → Option JsString
  usageStatistics : UsageStatistics N

variable {M B N : Type}

namespace SessionManager

/-- `_persist`: the fields after it, and whether it throws. -/
def persistOver (codec : EntryCodec M B) (faults : StorageFaults M B) (s : SessionManager M B)
    (entry : SessionEntry M B) : SessionManager M B × Bool :=
  if s.persistError then (s, true)
  else if !s.ensuredOnDisk && !hasAssistant codec s.entries then
    ({ s with flushed := false, ensuredOnDisk := false }, false)
  else if s.needsFullRewriteOnNextPersist || !s.flushed then
    match faults.rewrite with
    | none => (s.rewriteFileSync codec, false)
    | some (persistWriter, disk) => ({ s with persistWriter, disk, persistError := true }, true)
  else if s.persistWriter.isNone && faults.openWriter then ({ s with persistError := true }, true)
  else
    match s.ensurePersistWriter with
    | (none, s) => (s.rewriteFile, false)
    | (some object, s) =>
      match faults.write with
      | none => ({ s with disk := s.disk.write object (.entry (codec.prepareEntry entry)) }, false)
      | some disk => ({ s with disk, persistError := true }, true)

variable {codec : EntryCodec M B} {s : SessionManager M B} {entry : SessionEntry M B}

/-- Over a storage that does not throw it is `persist`. -/
theorem persistOver_no_faults :
    persistOver codec ⟨none, false, none⟩ s entry = (s.persist codec entry, s.persistError) := by
  unfold persistOver persist
  split_ifs with herror hdefer hrewrite hopen
  · rw [herror]
  · rw [eq_false_of_ne_true herror]
  · rw [eq_false_of_ne_true herror]
  · simp at hopen
  · rw [eq_false_of_ne_true herror]
    rcases s.ensurePersistWriter with ⟨_ | object, s'⟩ <;> rfl

/-- Persisting does not touch the entries, and what it throws is remembered. -/
theorem persistOver_spec (codec : EntryCodec M B) (faults : StorageFaults M B)
    (s : SessionManager M B) (entry : SessionEntry M B) :
    (persistOver codec faults s entry).1.entries = s.entries ∧
      ((persistOver codec faults s entry).2 = true →
        (persistOver codec faults s entry).1.persistError = true) := by
  unfold persistOver
  split_ifs with herror
  · exact ⟨rfl, fun _ => herror⟩
  · exact ⟨rfl, nofun⟩
  · rcases faults.rewrite with _ | ⟨persistWriter, disk⟩
    · exact ⟨rfl, nofun⟩
    · exact ⟨rfl, fun _ => rfl⟩
  · exact ⟨rfl, fun _ => rfl⟩
  · have hsame : s.ensurePersistWriter.2.entries = s.entries := by
      unfold ensurePersistWriter
      split
      · rfl
      · split <;> rfl
    rcases hwriter : s.ensurePersistWriter with ⟨_ | object, s'⟩
    · exact ⟨by rwa [hwriter] at hsame, nofun⟩
    · rw [hwriter] at hsame
      rcases faults.write with _ | disk
      · exact ⟨hsame, nofun⟩
      · exact ⟨hsame, fun _ => rfl⟩

end SessionManager

namespace ResidentSession
open SessionManager

/-- How an append ends: it returns, its target is not there, or preparing the entry or persisting
it throws. -/
inductive Outcome where
  | returned
  | notFound
  | unprepared
  | unpersisted
deriving DecidableEq

section Append
variable [Add N] (codec : ResidentCodec M B N) (faults : StorageFaults M B)

def addUsage (u usage : UsageStatistics N) : UsageStatistics N :=
  ⟨u.input + usage.input, u.output + usage.output, u.cacheRead + usage.cacheRead,
    u.cacheWrite + usage.cacheWrite, u.premiumRequests + usage.premiumRequests,
    u.cost + usage.cost⟩

/-- The usage after an entry that has been persisted. -/
def countUsage (u : UsageStatistics N) : SessionEntry M B → UsageStatistics N
  | .message _ message =>
    let u := if codec.isAssistant message then addUsage u (codec.usage message) else u
    match codec.taskToolUsage message with
    | some usage => addUsage u usage
    | none => u
  | .other _ _ => u

/-- `#appendEntry`. -/
def appendEntry (s : ResidentSession M B N) (entry : SessionEntry M B) :
    ResidentSession M B N × Outcome :=
  match codec.prepareEntryForResident entry with
  | none => (s, .unprepared)
  | some residentEntry =>
    let s := { s with
      manager := { s.manager with entries := s.manager.entries ++ [residentEntry] }
      byId := s.byId.set residentEntry.id residentEntry
      leafId := some residentEntry.id }
    let (manager, threw) :=
      if s.persists then persistOver codec.toEntryCodec faults s.manager residentEntry
      else (s.manager, false)
    let s := { s with manager }
    if threw then (s, .unpersisted)
    else ({ s with usageStatistics := countUsage codec s.usageStatistics entry }, .returned)

/-- The calls that append an entry: most only build it. -/
inductive AppendCall (M B : Type) where
  | append (entry : SessionEntry M B)
  | appendLabelChange (targetId : JsString) (label : Option JsString) (entry : SessionEntry M B)
  | branchWithSummary (branchFromId : Option JsString) (entry : SessionEntry M B)

def AppendCall.entry : AppendCall M B → SessionEntry M B
  | append entry | appendLabelChange _ _ entry | branchWithSummary _ entry => entry

def call (s : ResidentSession M B N) : AppendCall M B → ResidentSession M B N × Outcome
  | .append entry => appendEntry codec faults s entry
  | .appendLabelChange targetId label entry =>
    if (s.byId.get targetId).isNone then (s, .notFound)
    else
      match appendEntry codec faults s entry with
      | (s, .returned) =>
        -- the empty label clears it, too
        ({ s with labelsById := Function.update s.labelsById targetId (label.filter (· ≠ [])) },
          .returned)
      | thrown => thrown
  | .branchWithSummary branchFromId entry =>
    if branchFromId.any fun id => (s.byId.get id).isNone then (s, .notFound)
    else appendEntry codec faults { s with leafId := branchFromId } entry

end Append

/-! ## What a failed append leaves -/

/-- The entry is in memory, though it is neither on disk nor counted. -/
structure LeftBehind (s s' : ResidentSession M B N) (residentEntry : SessionEntry M B) : Prop where
  entries : s'.manager.entries = s.manager.entries ++ [residentEntry]
  byId : s'.byId = s.byId.set residentEntry.id residentEntry
  leafId : s'.leafId = some residentEntry.id
  labelsById : s'.labelsById = s.labelsById
  usageStatistics : s'.usageStatistics = s.usageStatistics
  persistError : s'.manager.persistError = true
  persists : s'.persists = true

section Failed
variable [Add N] {codec : ResidentCodec M B N} {faults : StorageFaults M B}

theorem appendEntry_unpersisted {s : ResidentSession M B N} {entry : SessionEntry M B}
    (h : (appendEntry codec faults s entry).2 = .unpersisted) :
    ∃ residentEntry, codec.prepareEntryForResident entry = some residentEntry ∧
      LeftBehind s (appendEntry codec faults s entry).1 residentEntry := by
  unfold appendEntry at h ⊢
  cases hresident : codec.prepareEntryForResident entry with
  | none =>
    rw [hresident] at h
    cases h
  | some residentEntry =>
    rw [hresident] at h
    refine ⟨residentEntry, rfl, ?_⟩
    dsimp only at h ⊢
    by_cases hpersists : s.persists = true
    · rw [if_pos hpersists] at h ⊢
      obtain ⟨hentries, herror⟩ := persistOver_spec codec.toEntryCodec faults
        { s.manager with entries := s.manager.entries ++ [residentEntry] } residentEntry
      by_cases hthrew : (persistOver codec.toEntryCodec faults
        { s.manager with entries := s.manager.entries ++ [residentEntry] } residentEntry).2 = true
      · rw [if_pos hthrew]
        exact ⟨hentries, rfl, rfl, rfl, rfl, herror hthrew, hpersists⟩
      · rw [if_neg hthrew] at h
        cases h
    · rw [if_neg hpersists] at h
      cases h

/-- Persisting is on, and has failed. -/
def Broken (s : ResidentSession M B N) : Prop :=
  s.persists = true ∧ s.manager.persistError = true

theorem appendEntry_of_broken {s : ResidentSession M B N} (h : s.Broken)
    (entry : SessionEntry M B) : (appendEntry codec faults s entry).2 ≠ .returned ∧
      (appendEntry codec faults s entry).1.Broken := by
  unfold appendEntry
  cases codec.prepareEntryForResident entry with
  | none => exact ⟨nofun, h⟩
  | some residentEntry =>
    dsimp only
    rw [if_pos h.1, persistOver, if_pos h.2]
    exact ⟨nofun, h⟩

theorem call_of_broken {s : ResidentSession M B N} (h : s.Broken) (c : AppendCall M B) :
    (call codec faults s c).2 ≠ .returned ∧ (call codec faults s c).1.Broken := by
  cases c with
  | append entry => exact appendEntry_of_broken h entry
  | appendLabelChange targetId label entry =>
    rw [call]
    split_ifs
    · exact ⟨by rintro ⟨⟩, h⟩
    · have hbroken : (appendEntry codec faults s entry).2 ≠ .returned ∧
          (appendEntry codec faults s entry).1.Broken := appendEntry_of_broken h entry
      rcases hres : appendEntry codec faults s entry with ⟨s', _ | _⟩ <;> rw [hres] at hbroken
      · exact absurd rfl hbroken.1
      all_goals exact hbroken
  | branchWithSummary branchFromId entry =>
    rw [call]
    split_ifs
    · exact ⟨by rintro ⟨⟩, h⟩
    · exact appendEntry_of_broken (show Broken { s with leafId := branchFromId } from h) entry

theorem call_unpersisted {s : ResidentSession M B N} {c : AppendCall M B}
    (h : (call codec faults s c).2 = .unpersisted) :
    ∃ residentEntry, codec.prepareEntryForResident c.entry = some residentEntry ∧
      LeftBehind s (call codec faults s c).1 residentEntry := by
  cases c with
  | append entry => exact appendEntry_unpersisted h
  | appendLabelChange targetId label entry =>
    rw [call] at h ⊢
    by_cases hfound : (s.byId.get targetId).isNone = true
    · rw [if_pos hfound] at h
      cases h
    · rw [if_neg hfound] at h ⊢
      rcases hres : appendEntry codec faults s entry with ⟨s', outcome⟩
      rw [hres] at h
      cases outcome with
      | unpersisted =>
        have hthrew : (appendEntry codec faults s entry).2 = .unpersisted := by rw [hres]
        have hleft := appendEntry_unpersisted hthrew
        rwa [hres] at hleft
      | _ => cases h
  | branchWithSummary branchFromId entry =>
    rw [call] at h ⊢
    split_ifs at h ⊢ with hfound
    obtain ⟨residentEntry, hresident, hleft⟩ := appendEntry_unpersisted h
    exact ⟨residentEntry, hresident, ⟨hleft.entries, hleft.byId, hleft.leafId, hleft.labelsById,
      hleft.usageStatistics, hleft.persistError, hleft.persists⟩⟩

end Failed

/-- Messages are their own usage, and all are the assistant's. -/
def countingCodec : ResidentCodec Nat Unit Nat where
  isAssistant := fun _ => true
  prepareEntry := id
  prepareEntryForResident := some
  usage := fun n => ⟨n, 0, 0, 0, 0, 0⟩
  taskToolUsage := fun _ => none

/-- A session with a file that has been written. -/
def writtenSession : ResidentSession Nat Unit Nat where
  persists := true
  manager :=
    { header := ⟨some 4, js "s", none, none, [], [], none⟩
      entries := []
      titleSource := none
      flushed := true
      needsFullRewriteOnNextPersist := false
      ensuredOnDisk := true
      persistError := false
      persistWriter := some ⟨0, false⟩
      queue := []
      running := none
      disk := ⟨[[]], some 0⟩ }
  byId := .empty
  leafId := none
  labelsById := fun _ => none
  usageStatistics := ⟨0, 0, 0, 0, 0, 0⟩

def fullDisk : StorageFaults Nat Unit := ⟨none, false, some ⟨[[]], some 0⟩⟩

end ResidentSession
end GajaeCode
