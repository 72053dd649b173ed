import GajaeCode.HashlineExecute

/-! # When a multi-section edit is all or nothing

The preflight of `packages/coding-agent/src/hashline/execute.ts` looks at every
section before anything is written.  It predicts the execution only as far as a
section finds the same file and the same snapshot again when its turn comes:

* an earlier section may have written the same file under another spelling;
* an earlier section's snapshot may have pushed its own out of the read cache;
* the text of a notebook is turned back into a notebook only when it is written.
-/
namespace GajaeCode
open JsString List

section Atomic
variable {host : EditHost}
variable {sections : List HashlineInputSection} {err : HashlineError} {st' : EditState}

/-- The edits of the section do not match its text, so the cache is consulted. -/
def NeedsRecovery (host : EditHost) (l : LoadedSection) : Prop :=
  ∃ mismatches fileLines, applyHashlineEdits host.xxHash32 l.normalized l.parsed.edits
    host.applyOptions = .error (.mismatch mismatches fileLines)

/-- Without recovery the cache is neither read nor touched. -/
theorem applySection_of_not_needs {l : LoadedSection} (h : ¬ NeedsRecovery host l)
    (cache : FileReadCache) :
    applySection host cache l = (applyHashlineEdits host.xxHash32 l.normalized l.parsed.edits
      host.applyOptions, cache) := by
  unfold applySection applyHashlineEditsWithRecovery
  split
  · rename_i mismatches fileLines happly
    exact absurd ⟨mismatches, fileLines, happly⟩ h
  · rfl

/-- With it, the outcome depends on the snapshot of the section's path, which
becomes the most recent one. -/
theorem applySection_of_needs {l : LoadedSection} (h : NeedsRecovery host l)
    (cache : FileReadCache) : (applySection host cache l).2 = cache.touch l.absolutePath ∧
      ∀ cache' : FileReadCache, cache'.peek l.absolutePath = cache.peek l.absolutePath →
        (applySection host cache' l).1 = (applySection host cache l).1 := by
  obtain ⟨mismatches, fileLines, happly⟩ := h
  unfold applySection applyHashlineEditsWithRecovery
  rw [happly]
  refine ⟨?_, ?_⟩
  · simp only [tryRecoverHashlineWithCache]
    split <;> simp_all
  · intro cache' hpeek
    simp only [tryRecoverHashlineWithCache, hpeek]
    split <;> simp_all

theorem exists_snapshot_of_needs {l : LoadedSection} {cache : FileReadCache}
    {r : HashlineApplyResult} (h : NeedsRecovery host l)
    (hok : (applySection host cache l).1 = .ok r) :
    ∃ snapshot, cache.peek l.absolutePath = some snapshot := by
  obtain ⟨mismatches, fileLines, happly⟩ := h
  cases hpeek : cache.peek l.absolutePath with
  | some snapshot => exact ⟨snapshot, rfl⟩
  | none =>
    rw [applySection, applyHashlineEditsWithRecovery, happly] at hok
    simp only [tryRecoverHashlineWithCache, hpeek] at hok
    cases hok

variable {s : HashlineInputSection}

theorem resolvePlanPath_of_loadSection {files : JsString → Option FileEntry} {l : LoadedSection}
    (h : loadSection host s files = .ok l) : host.resolvePlanPath s.path = .ok l.absolutePath := by
  obtain ⟨absolutePath, hpath, h⟩ := bind_eq_ok h
  obtain ⟨parsed, _, h⟩ := bind_eq_ok h
  obtain ⟨_, _, h⟩ := bind_eq_ok h
  obtain ⟨source, _, h⟩ := bind_eq_ok h
  split at h
  · cases h
  · obtain ⟨_, _, h⟩ := bind_eq_ok h
    cases h
    exact hpath

theorem loadSection_congr {files files' : JsString → Option FileEntry}
    (h : ∀ absolutePath, host.resolvePlanPath s.path = .ok absolutePath →
      files' (host.place absolutePath) = files (host.place absolutePath)) :
    loadSection host s files' = loadSection host s files := by
  unfold loadSection
  cases hpath : host.resolvePlanPath s.path with
  | error err => rfl
  | ok absolutePath =>
    simp only [bind, Except.bind, h absolutePath hpath]

section Steps
variable {s : HashlineInputSection} {st : EditState} {l : LoadedSection} {r : HashlineApplyResult}
  {cache : FileReadCache} {finalContent : JsString} {err : HashlineError}

section
variable (hload : loadSection host s st.files = .ok l)
    (happly : applySection host st.cache l = (.ok r, cache)) (hne : l.normalized ≠ r.lines)
include hload happly hne

theorem preflightHashlineSection_eq_ok :
    preflightHashlineSection host s st = (.ok (), { st with cache }) := by
  simp only [preflightHashlineSection, hload, happly]
  exact if_neg hne

theorem executeHashlineSection_eq_ok
    (hser : serializeEditFileText host l.absolutePath s.path (editedText l r) (st.files (host.place
      l.absolutePath)) = .ok finalContent) :
    executeHashlineSection host s st = (.ok (sectionResult host s l r),
      { files := Function.update st.files (host.place l.absolutePath)
          (some (.file (host.writethrough l.absolutePath finalContent)))
        cache := cache.recordContiguous l.absolutePath 1 (lines r.lines) }) := by
  simp only [executeHashlineSection, hload, happly, hser]
  exact if_neg hne

theorem executeHashlineSection_eq_refused
    (hser : serializeEditFileText host l.absolutePath s.path (editedText l r) (st.files (host.place
      l.absolutePath)) = .error err) :
    executeHashlineSection host s st = (.error err, { st with cache }) := by
  simp only [executeHashlineSection, hload, happly, hser]
  exact if_neg hne

end

theorem executeHashlineSection_eq_error (hload : loadSection host s st.files = .ok l)
    (happly : applySection host st.cache l = (.error err, cache)) :
    executeHashlineSection host s st = (.error err, { st with cache }) := by
  simp only [executeHashlineSection, hload, happly]

end Steps

/-! ## Sections that will go through -/

/-- The section's preflight has passed on the original files, and its edits still
give the same result with the cache as it is: the snapshot they need is safe. -/
structure Ready (host : EditHost) (P : List JsString) (st₀ : EditState) (cache : FileReadCache)
    (s : HashlineInputSection) (l : LoadedSection) (r : HashlineApplyResult) : Prop where
  load : loadSection host s st₀.files = .ok l
  original : (applySection host st₀.cache l).1 = .ok r
  now : (applySection host cache l).1 = .ok r
  changes : l.normalized ≠ r.lines
  recent : NeedsRecovery host l → ∃ snapshot, LruCache.RecentAmong P cache l.absolutePath snapshot

section Ready
variable {P : List JsString} {st₀ : EditState} {cache cache' : FileReadCache}
  {s : HashlineInputSection} {l : LoadedSection} {r : HashlineApplyResult}

/-- A change of the cache that keeps the snapshot safe keeps the section ready. -/
theorem Ready.of_recent (h : Ready host P st₀ cache s l r)
    (hkeep : ∀ snapshot, LruCache.RecentAmong P cache l.absolutePath snapshot →
      LruCache.RecentAmong P cache' l.absolutePath snapshot) : Ready host P st₀ cache' s l r := by
  by_cases hneeds : NeedsRecovery host l
  · obtain ⟨snapshot, hrecent⟩ := h.recent hneeds
    have hrecent' := hkeep snapshot hrecent
    refine ⟨h.load, h.original, ?_, h.changes, fun _ => ⟨snapshot, hrecent'⟩⟩
    rw [(applySection_of_needs hneeds cache).2 cache' (hrecent'.peek.trans hrecent.peek.symm)]
    exact h.now
  · refine ⟨h.load, h.original, ?_, h.changes, fun hn => absurd hn hneeds⟩
    have hnow := h.now
    rw [applySection_of_not_needs hneeds] at hnow ⊢
    exact hnow

/-- Applying a section leaves the others ready, if it is one of the batch or needs no
snapshot. -/
theorem Ready.applySection (h : Ready host P st₀ cache s l r) {l' : LoadedSection}
    (hl' : NeedsRecovery host l' → l'.absolutePath ∈ P) :
    Ready host P st₀ (GajaeCode.applySection host cache l').2 s l r := by
  apply h.of_recent
  intro snapshot hrecent
  by_cases hneeds : NeedsRecovery host l'
  · rw [(applySection_of_needs hneeds cache).1]
    exact hrecent.touch (hl' hneeds)
  · rw [applySection_of_not_needs hneeds]
    exact hrecent

/-- Looking up other paths changes no snapshot, so the outcome is the original one. -/
theorem applySection_touch (cache : FileReadCache) (l l' : LoadedSection) :
    (applySection host (applySection host cache l').2 l).1 = (applySection host cache l).1 := by
  by_cases hneeds : NeedsRecovery host l
  · apply (applySection_of_needs hneeds cache).2
    by_cases hneeds' : NeedsRecovery host l'
    · rw [(applySection_of_needs hneeds' cache).1, LruCache.peek_touch]
    · rw [applySection_of_not_needs hneeds']
  · rw [applySection_of_not_needs hneeds, applySection_of_not_needs hneeds]

theorem preflightHashlineSection_files (s : HashlineInputSection) (st : EditState) :
    (preflightHashlineSection host s st).2.files = st.files := by
  unfold preflightHashlineSection
  split
  · rfl
  · split
    · rfl
    · split <;> rfl

theorem preflightHashlineSection_ok {st st' : EditState}
    (h : preflightHashlineSection host s st = (.ok (), st')) :
    ∃ l r, loadSection host s st.files = .ok l ∧ (GajaeCode.applySection host st.cache l).1 = .ok r ∧
      l.normalized ≠ r.lines ∧
      st' = { st with cache := (GajaeCode.applySection host st.cache l).2 } := by
  unfold preflightHashlineSection at h
  split at h
  · cases h
  · rename_i l hload
    split at h
    · cases h
    · rename_i r cache happly
      split at h
      · cases h
      · rename_i hne
        cases h
        exact ⟨l, r, hload, by rw [happly], hne, by rw [happly]⟩

theorem ready_of_preflight {st : EditState} (hfiles : st.files = st₀.files)
    (hsame : ∀ l, (GajaeCode.applySection host st.cache l).1 =
      (GajaeCode.applySection host st₀.cache l).1) (hload : loadSection host s st.files = .ok l)
    (happly : (GajaeCode.applySection host st.cache l).1 = .ok r) (hne : l.normalized ≠ r.lines) :
    Ready host P st₀ (GajaeCode.applySection host st.cache l).2 s l r where
  load := hfiles ▸ hload
  original := hsame l ▸ happly
  now := (applySection_touch st.cache l l).trans happly
  changes := hne
  recent := by
    intro hneeds
    obtain ⟨snapshot, hpeek⟩ := exists_snapshot_of_needs hneeds happly
    rw [(applySection_of_needs hneeds st.cache).1]
    exact ⟨snapshot, LruCache.recentAmong_touch_self hpeek⟩

end Ready

def batchPaths (host : EditHost) (sections : List HashlineInputSection) : List JsString :=
  sections.filterMap (fun s => (host.resolvePlanPath s.path).toOption)

theorem mem_batchPaths {absolutePath : JsString} (hs : s ∈ sections)
    (hpath : host.resolvePlanPath s.path = .ok absolutePath) :
    absolutePath ∈ batchPaths host sections :=
  mem_filterMap.mpr ⟨s, hs, by rw [hpath]; rfl⟩

/-- The preflight loop writes nothing, whatever it returns. -/
theorem preflightSections_files (sections : List HashlineInputSection) (st : EditState) :
    (preflightSections host sections st).2.files = st.files := by
  induction sections generalizing st with
  | nil => rfl
  | cons s rest ih =>
    have hfiles : (preflightHashlineSection host s st).2.files = st.files :=
      preflightHashlineSection_files s st
    rw [preflightSections]
    split
    · rename_i err st' hstep
      rw [hstep] at hfiles
      exact hfiles
    · rename_i st' hstep
      rw [hstep] at hfiles
      exact (ih st').trans hfiles

/-- A preflight loop that passes keeps ready what was, and makes its own sections
ready. -/
theorem preflightSections_ready {P : List JsString} {st₀ : EditState} {st : EditState}
    (hrun : preflightSections host sections st = (.ok (), st')) (hfiles : st.files = st₀.files)
    (hsame : ∀ l, (applySection host st.cache l).1 = (applySection host st₀.cache l).1)
    (hP : ∀ s ∈ sections, ∀ l, loadSection host s st₀.files = .ok l → NeedsRecovery host l →
      l.absolutePath ∈ P) :
    (∀ s l r, Ready host P st₀ st.cache s l r → Ready host P st₀ st'.cache s l r) ∧
      ∀ s ∈ sections, ∃ l r, Ready host P st₀ st'.cache s l r := by
  induction sections generalizing st with
  | nil =>
    cases hrun
    exact ⟨fun _ _ _ h => h, by simp⟩
  | cons s rest ih =>
    rw [preflightSections] at hrun
    split at hrun
    · cases hrun
    · rename_i st₁ hstep
      obtain ⟨l, r, hload, happly, hne, rfl⟩ := preflightHashlineSection_ok hstep
      have hready := ready_of_preflight (P := P) hfiles hsame hload happly hne
      have hl : NeedsRecovery host l → l.absolutePath ∈ P := hP s mem_cons_self l (hfiles ▸ hload)
      obtain ⟨hkept, hrest⟩ := ih hrun hfiles
        (fun l' => (applySection_touch st.cache l' l).trans (hsame l'))
        (fun s' hs' => hP s' (mem_cons_of_mem _ hs'))
      refine ⟨fun s' l' r' h => hkept s' l' r' (h.applySection hl), ?_⟩
      intro s' hs'
      rcases mem_cons.mp hs' with rfl | hs'
      · exact ⟨l, r, hkept s' l r hready⟩
      · exact hrest s' hs'

/-! ## The execution of the whole batch -/

/-- The two sections write to different places of the file system. -/
def DistinctPlaces (host : EditHost) (s t : HashlineInputSection) : Prop :=
  ∀ a b, host.resolvePlanPath s.path = .ok a → host.resolvePlanPath t.path = .ok b →
    host.place a ≠ host.place b

/-- What the section's edits make of the original file can be written back: for
a file that is no notebook this is always so. -/
def Writable (host : EditHost) (st₀ : EditState) (s : HashlineInputSection) : Prop :=
  ∀ l r, loadSection host s st₀.files = .ok l → (applySection host st₀.cache l).1 = .ok r →
    ∃ finalContent, serializeEditFileText host l.absolutePath s.path (editedText l r)
      (st₀.files (host.place l.absolutePath)) = .ok finalContent

/-- The section's edits do not match the file, so it goes through only with a snapshot. -/
def UsesSnapshot (host : EditHost) (st₀ : EditState) (s : HashlineInputSection) : Prop :=
  ∃ l, loadSection host s st₀.files = .ok l ∧ NeedsRecovery host l

/-- The sections do not get in each other's way. -/
structure Independent (host : EditHost) (st₀ : EditState) (sections : List HashlineInputSection) :
    Prop where
  /-- no two lead to one file, -/
  places : sections.Pairwise (DistinctPlaces host)
  /-- no snapshot is needed that so many writes push out of the read cache, -/
  cached : ∀ s ∈ sections.drop maxPathsPerSession, ¬ UsesSnapshot host st₀ s
  /-- and what comes after the first write can be written. -/
  writable : ∀ s ∈ sections.tail, Writable host st₀ s

/-- The batch comes to its end before anything is written: a section's preflight throws, or
what the first one makes of its file cannot be written. -/
def StopsFirst (host : EditHost) (st : EditState) (sections : List HashlineInputSection) : Prop :=
  (∃ err, (preflightSections host sections st).1 = .error err) ∨
    ∃ s ∈ sections.head?, ¬ Writable host st s

section Execution
variable {P : List JsString} {st₀ st : EditState} {s : HashlineInputSection} {l : LoadedSection}
  {r : HashlineApplyResult}

/-- The file of the section is still the original one. -/
def Untouched (host : EditHost) (st₀ st : EditState) (s : HashlineInputSection) : Prop :=
  ∀ absolutePath, host.resolvePlanPath s.path = .ok absolutePath →
    st.files (host.place absolutePath) = st₀.files (host.place absolutePath)

/-- The state after a section was written. -/
def afterWrite (host : EditHost) (st : EditState) (l : LoadedSection) (r : HashlineApplyResult)
    (finalContent : JsString) : EditState where
  files := Function.update st.files (host.place l.absolutePath)
    (some (.file (host.writethrough l.absolutePath finalContent)))
  cache := (applySection host st.cache l).2.recordContiguous l.absolutePath 1 (lines r.lines)

/-- A ready section whose file is untouched is written, unless the serializer
refuses it. -/
theorem executeHashlineSection_of_ready (h : Ready host P st₀ st.cache s l r)
    (hsame : Untouched host st₀ st s) :
    (∃ err st', serializeEditFileText host l.absolutePath s.path (editedText l r)
        (st₀.files (host.place l.absolutePath)) = .error err ∧
      executeHashlineSection host s st = (.error err, st')) ∨
    ∃ finalContent, serializeEditFileText host l.absolutePath s.path (editedText l r)
        (st₀.files (host.place l.absolutePath)) = .ok finalContent ∧
      executeHashlineSection host s st =
        (.ok (sectionResult host s l r), afterWrite host st l r finalContent) := by
  have hload : loadSection host s st.files = .ok l := (loadSection_congr hsame).trans h.load
  have hplace := hsame _ (resolvePlanPath_of_loadSection h.load)
  have happly : applySection host st.cache l = (.ok r, (applySection host st.cache l).2) :=
    Prod.ext h.now rfl
  cases hser : serializeEditFileText host l.absolutePath s.path (editedText l r)
      (st₀.files (host.place l.absolutePath)) with
  | error err =>
    exact .inl ⟨err, _, rfl,
      executeHashlineSection_eq_refused hload happly h.changes (hplace ▸ hser)⟩
  | ok finalContent =>
    exact .inr ⟨finalContent, rfl,
      executeHashlineSection_eq_ok hload happly h.changes (hplace ▸ hser)⟩

/-- Writing one file leaves the sections of other files ready and untouched. -/
theorem afterWrite_other {t : HashlineInputSection} {l' : LoadedSection} {r' : HashlineApplyResult}
    (h : Ready host P st₀ st.cache t l' r') (hsame : Untouched host st₀ st t)
    (hs : host.resolvePlanPath s.path = .ok l.absolutePath) (hne : DistinctPlaces host s t)
    (hl : NeedsRecovery host l' → l.absolutePath ∈ P ∧ l'.absolutePath ∈ P)
    (hroom : P.length ≤ maxPathsPerSession) (finalContent : JsString) :
    Ready host P st₀ (afterWrite host st l r finalContent).cache t l' r' ∧
      Untouched host st₀ (afterWrite host st l r finalContent) t := by
  have ht := resolvePlanPath_of_loadSection h.load
  have hplace := hne _ _ hs ht
  refine ⟨?_, ?_⟩
  · by_cases hneeds : NeedsRecovery host l'
    · apply (h.applySection fun _ => (hl hneeds).1).of_recent
      intro snapshot hrecent
      exact FileReadCache.recentAmong_recordContiguous hrecent (hl hneeds).1 (hl hneeds).2
        (fun heq => hplace (by rw [heq])) hroom 1 (lines r.lines)
    · refine ⟨h.load, h.original, ?_, h.changes, fun hn => absurd hn hneeds⟩
      have hnow := h.now
      rw [applySection_of_not_needs hneeds] at hnow ⊢
      exact hnow
  · intro absolutePath hpath
    have hdiff := hne _ _ hs hpath
    simp only [afterWrite, Function.update_of_ne hdiff.symm]
    exact hsame absolutePath hpath

/-- The sections still to be executed: all of them ready, on files of their own
that nobody has written yet. -/
structure Pending (host : EditHost) (P : List JsString) (st₀ st : EditState)
    (sections : List HashlineInputSection) : Prop where
  ready : ∀ s ∈ sections, ∃ l r, Ready host P st₀ st.cache s l r
  untouched : ∀ s ∈ sections, Untouched host st₀ st s
  places : sections.Pairwise (DistinctPlaces host)
  own : ∀ s ∈ sections, UsesSnapshot host st₀ s → ∀ absolutePath,
    host.resolvePlanPath s.path = .ok absolutePath → absolutePath ∈ P
  earlier : sections.Pairwise fun s t => UsesSnapshot host st₀ t → ∀ absolutePath,
    host.resolvePlanPath s.path = .ok absolutePath → absolutePath ∈ P
  room : P.length ≤ maxPathsPerSession

/-- Executing the next section: the serializer refuses it, or the rest is still
pending. -/
theorem Pending.step {rest : List HashlineInputSection} (h : Pending host P st₀ st (s :: rest)) :
    (¬ Writable host st₀ s ∧ ∃ err st', executeHashlineSection host s st = (.error err, st')) ∨
    ∃ result st', executeHashlineSection host s st = (.ok result, st') ∧
      Pending host P st₀ st' rest := by
  obtain ⟨hfirst, hplaces⟩ := pairwise_cons.mp h.places
  obtain ⟨hbefore, hearlier⟩ := pairwise_cons.mp h.earlier
  obtain ⟨l, r, hs⟩ := h.ready s mem_cons_self
  have hpath := resolvePlanPath_of_loadSection hs.load
  rcases executeHashlineSection_of_ready hs (h.untouched s mem_cons_self) with
    ⟨err, st', hser, hexec⟩ | ⟨finalContent, -, hexec⟩
  · refine .inl ⟨?_, err, st', hexec⟩
    intro hwritable
    obtain ⟨finalContent, hok⟩ := hwritable l r hs.load hs.original
    rw [hser] at hok
    cases hok
  · have hafter : ∀ t ∈ rest, ∃ l' r',
        Ready host P st₀ (afterWrite host st l r finalContent).cache t l' r' ∧
          Untouched host st₀ (afterWrite host st l r finalContent) t := by
      intro t ht
      have ht' := mem_cons_of_mem s ht
      obtain ⟨l', r', hready⟩ := h.ready t ht'
      refine ⟨l', r', afterWrite_other hready (h.untouched t ht') hpath (hfirst t ht)
        (fun hneeds => ?_) h.room finalContent⟩
      have huses : UsesSnapshot host st₀ t := ⟨l', hready.load, hneeds⟩
      exact ⟨hbefore t ht huses _ hpath,
        h.own t ht' huses _ (resolvePlanPath_of_loadSection hready.load)⟩
    refine .inr ⟨_, _, hexec, ?_, ?_, hplaces, ?_, hearlier, h.room⟩
    · intro t ht
      obtain ⟨l', r', hready, _⟩ := hafter t ht
      exact ⟨l', r', hready⟩
    · intro t ht
      obtain ⟨_, _, _, huntouched⟩ := hafter t ht
      exact huntouched
    · exact fun t ht => h.own t (mem_cons_of_mem _ ht)

/-- Pending sections that can all be written all go through. -/
theorem Pending.executeSections {sections : List HashlineInputSection} {st : EditState}
    (h : Pending host P st₀ st sections) (hwritable : ∀ s ∈ sections, Writable host st₀ s) :
    ∃ results st', GajaeCode.executeSections host sections st = (.ok results, st') := by
  induction sections generalizing st with
  | nil => exact ⟨[], st, rfl⟩
  | cons s rest ih =>
    rcases h.step with ⟨hnot, _⟩ | ⟨result, st₁, hexec, hrest⟩
    · exact absurd (hwritable s mem_cons_self) hnot
    · obtain ⟨results, st', hrun⟩ := ih hrest (fun t ht => hwritable t (mem_cons_of_mem _ ht))
      exact ⟨(s.path, result) :: results, st', by simp only [GajaeCode.executeSections, hexec, hrun]⟩

end Execution

/-- An edit that throws has left every file as it was. -/
def AllOrNothing (host : EditHost) (input : JsString) (path : Option JsString) (st : EditState) :
    Prop :=
  ∀ err st', executeHashlineSingle host input path st = (.error err, st') → st'.files = st.files

/-- A section on its own writes last, so its failure leaves the files alone. -/
theorem executeHashlineSection_error {st : EditState}
    (h : executeHashlineSection host s st = (.error err, st')) : st'.files = st.files := by
  unfold executeHashlineSection at h
  split at h
  · cases h
    rfl
  · split at h
    · cases h
      rfl
    · split at h
      · cases h
      · split at h
        · cases h
          rfl
        · cases h

theorem pending_of_preflight {st : EditState} (hind : Independent host st sections)
    (h : preflightSections host sections st = (.ok (), st')) :
    Pending host (batchPaths host (sections.take maxPathsPerSession)) st st' sections := by
  -- a section that needs its snapshot is among the first ones
  have hsplit : sections.take maxPathsPerSession ++ sections.drop maxPathsPerSession = sections :=
    take_append_drop _ _
  have hown : ∀ s ∈ sections, UsesSnapshot host st s → ∀ absolutePath,
      host.resolvePlanPath s.path = .ok absolutePath →
        absolutePath ∈ batchPaths host (sections.take maxPathsPerSession) := by
    intro s hs huses absolutePath hpath
    rw [← hsplit, mem_append] at hs
    exact mem_batchPaths (hs.resolve_right fun hlate => hind.cached s hlate huses) hpath
  have hfiles : (preflightSections host sections st).2.files = st.files :=
    preflightSections_files sections st
  rw [h] at hfiles
  refine ⟨?_, fun s _ absolutePath _ => by rw [hfiles], hind.places, hown, ?_, ?_⟩
  · exact (preflightSections_ready h rfl (fun _ => rfl) fun s hs l hload hneeds =>
      hown s hs ⟨l, hload, hneeds⟩ _ (resolvePlanPath_of_loadSection hload)).2
  · have hearly : ∀ s ∈ sections.take maxPathsPerSession, ∀ absolutePath,
        host.resolvePlanPath s.path = .ok absolutePath →
          absolutePath ∈ batchPaths host (sections.take maxPathsPerSession) :=
      fun s hs _ hpath => mem_batchPaths hs hpath
    rw [← hsplit, pairwise_append, hsplit]
    refine ⟨pairwise_of_forall_mem_list fun s hs t _ _ => hearly s hs,
      pairwise_of_forall_mem_list fun s _ t ht huses => absurd huses (hind.cached t ht),
      fun s hs t _ _ => hearly s hs⟩
  · exact (length_filterMap_le _ _).trans (length_take_le _ _)

/-- Pending sections fail at the first one or not at all. -/
theorem Pending.error {P : List JsString} {st₀ st : EditState} (h : Pending host P st₀ st sections)
    (hwritable : ∀ s ∈ sections.tail, Writable host st₀ s)
    (hrun : GajaeCode.executeSections host sections st = (.error err, st')) :
    st'.files = st.files := by
  cases sections with
  | nil => cases hrun
  | cons s rest =>
    rw [GajaeCode.executeSections] at hrun
    split at hrun
    · rename_i err₁ st₁ hfirst
      cases hrun
      exact executeHashlineSection_error hfirst
    · -- the first section is written: from here on nothing fails
      rename_i result st₁ hfirst
      rcases h.step with ⟨_, err₁, st₁', hexec⟩ | ⟨result', st₁', hexec, hrest⟩
      · rw [hfirst] at hexec
        cases hexec
      · rw [hfirst] at hexec
        cases hexec
        obtain ⟨results, st₂, hok⟩ := hrest.executeSections hwritable
        rw [hok] at hrun
        cases hrun

/-- After a preflight that has passed, a first section that cannot be written throws. -/
theorem executeSections_of_not_writable {rest : List HashlineInputSection} {st₁ : EditState}
    (hpre : preflightSections host (s :: rest) st = (.ok (), st₁))
    (hnot : ¬ Writable host st s)
    (hrun : GajaeCode.executeSections host (s :: rest) st₁ = (.error err, st')) :
    st'.files = st₁.files := by
  have hfiles : (preflightSections host (s :: rest) st).2.files = st.files :=
    preflightSections_files (s :: rest) st
  rw [hpre] at hfiles
  obtain ⟨l, r, hready⟩ := (preflightSections_ready (P := batchPaths host (s :: rest)) hpre rfl
    (fun _ => rfl) fun t ht l hload _ =>
      mem_batchPaths ht (resolvePlanPath_of_loadSection hload)).2 s mem_cons_self
  rcases executeHashlineSection_of_ready hready (fun _ _ => by rw [hfiles]) with
    ⟨err₁, st₂, _, hexec⟩ | ⟨finalContent, hser, _⟩
  · rw [GajaeCode.executeSections, hexec] at hrun
    cases hrun
    exact executeHashlineSection_error hexec
  · refine absurd (fun l' r' hload happly => ?_) hnot
    obtain rfl := Except.ok.inj (hready.load.symm.trans hload)
    obtain rfl := Except.ok.inj (hready.original.symm.trans happly)
    exact ⟨finalContent, hser⟩

/-- A batch that throws has written nothing, if its sections are independent or it stops
before the first write. -/
theorem runSections_error {st : EditState}
    (hcond : Independent host st sections ∨ StopsFirst host st sections)
    (h : runSections host sections st = (.error err, st')) : st'.files = st.files := by
  have hfiles : (preflightSections host sections st).2.files = st.files :=
    preflightSections_files sections st
  unfold runSections at h
  split at h
  · rename_i err' st₁ hpre
    rw [hpre] at hfiles
    cases h
    exact hfiles
  · rename_i st₁ hpre
    rw [hpre] at hfiles
    split at h
    · rename_i err' st₂ hexec
      cases h
      refine Eq.trans ?_ hfiles
      rcases hcond with hind | ⟨err, herr⟩ | ⟨s, hs, hnot⟩
      · exact (pending_of_preflight hind hpre).error hind.writable hexec
      · rw [hpre] at herr
        cases herr
      · cases sections with
        | nil => cases hs
        | cons first rest =>
          obtain rfl : first = s := Option.some.inj hs
          exact executeSections_of_not_writable hpre hnot hexec
    · cases h

theorem allOrNothing_of_independent (host : EditHost) (input : JsString)
    (path : Option JsString) (st : EditState)
    (hcond : ∀ sections, inputSections host input path = .ok sections →
      Independent host st sections ∨ StopsFirst host st sections) :
    AllOrNothing host input path st := by
  intro err st' h
  unfold executeHashlineSingle at h
  split at h
  · cases h
    rfl
  · split at h
    · rename_i err₁ st₁ hexec
      cases h
      exact executeHashlineSection_error hexec
    · cases h
  · rename_i sections _ hsections
    exact runSections_error (hcond sections hsections) h

/-! ## Two names of one file -/

/-- No formatter touches an ASCII text, no generated file is refused, and the hash
is the runtime's. -/
structure PlainSession (host : EditHost) : Prop where
  editable : ∀ content path, host.assertEditableFileContent content path = .ok ()
  decode_writethrough : ∀ absolutePath content, content.all (· < 0x0080) = true →
    host.decode (host.writethrough absolutePath content) = content
  length_writethrough : ∀ absolutePath content, content.all (· < 0x0080) = true →
    (host.writethrough absolutePath content).length = content.length
  xxHash32 : host.xxHash32 = Xxh32.xxh32

/-- The header path `path` is a name of a text file that may be edited. -/
structure PlainFile (host : EditHost) (path absolutePath : JsString) : Prop where
  resolved : host.resolvePlanPath path = .ok absolutePath
  permitted : host.enforcePlanModeWrite path = .ok ()
  notNotebook : isNotebookPath absolutePath = false

/-- The section that replaces the first line, `a` with the hash `hs`, by `line`. -/
def replaceFirst (path line : JsString) : HashlineInputSection := ⟨path, js "≔1hs\n" ++ line⟩

def replaceFirstParsed (line : JsString) : ParsedHashline :=
  ⟨[.insert (.beforeAnchor ⟨1, js "hs"⟩) line 1 0, .delete ⟨1, js "hs"⟩ 1 1], []⟩

def loadedLine (absolutePath line content : JsString) : LoadedSection :=
  ⟨absolutePath, replaceFirstParsed line, ⟨true, content⟩, [], content⟩

/-- One file, with the line `a`; nothing has been read yet. -/
def oneLineState (host : EditHost) (absolutePath : JsString) : EditState where
  files := fun place => if place = host.place absolutePath then
    some (.file (host.writethrough absolutePath (js "a\n"))) else none
  cache := LruCache.empty

/-- The same file after the first of two such sections. -/
def replacedState (host : EditHost) (absolutePath : JsString) : EditState where
  files := Function.update (oneLineState host absolutePath).files (host.place absolutePath)
    (some (.file (host.writethrough absolutePath (js "X\n"))))
  cache := FileReadCache.recordContiguous LruCache.empty absolutePath 1 (lines (js "X\n"))

section Names
variable {p q a b line content : JsString}

theorem loadSection_replaceFirst (hs : PlainSession host) (hf : PlainFile host p a)
    (hparse : parseHashlineWithWarnings Xxh32.xxh32 (js "≔1hs\n" ++ line) =
      .ok (replaceFirstParsed line))
    (hascii : content.all (· < 0x0080) = true) (hshort : content.length ≤ maxEditFileBytes)
    (hbom : stripBom content = ([], content)) {files : JsString → Option FileEntry}
    (hfile : files (host.place a) = some (.file (host.writethrough b content))) :
    loadSection host (replaceFirst p line) files = .ok (loadedLine a line content) := by
  have hlen : ¬ maxEditFileBytes < (host.writethrough b content).length := by
    rw [hs.length_writethrough b content hascii]
    omega
  have hread : readHashlineFile host a p (files (host.place a)) = .ok ⟨true, content⟩ := by
    rw [hfile, readHashlineFile, readEditFileText, if_neg hlen, hf.notNotebook,
      hs.decode_writethrough b content hascii]
    rfl
  simp only [loadSection, replaceFirst, hf.resolved, hs.xxHash32, hparse, hf.permitted, hread,
    hs.editable, hbom, bind, Except.bind, pure, Except.pure]
  rfl

/-- On the line `a` the section applies, whatever the cache holds. -/
theorem applySection_loadedLine (hs : PlainSession host) {r : HashlineApplyResult}
    (happly : ∀ options, applyHashlineEdits Xxh32.xxh32 (normalizeToLF content)
      (replaceFirstParsed line).edits options = .ok r) (cache : FileReadCache) :
    applySection host cache (loadedLine a line content) = (.ok r, cache) := by
  unfold applySection applyHashlineEditsWithRecovery
  simp only [hs.xxHash32, loadedLine, LoadedSection.normalized, happly]

theorem parse_replaceFirst : parseHashlineWithWarnings Xxh32.xxh32 (js "≔1hs\n" ++ js "X") =
        .ok (replaceFirstParsed (js "X")) ∧
      parseHashlineWithWarnings Xxh32.xxh32 (js "≔1hs\n" ++ js "Y") =
        .ok (replaceFirstParsed (js "Y")) := by
  decide

def isMismatch : Except HashlineError HashlineApplyResult → Bool
  | .error (.mismatch _ _) => true
  | _ => false

theorem eq_mismatch {result : Except HashlineError HashlineApplyResult}
    (h : isMismatch result = true) :
    ∃ mismatches fileLines, result = .error (.mismatch mismatches fileLines) := by
  unfold isMismatch at h
  split at h
  · exact ⟨_, _, rfl⟩
  · cases h

/-- Each section applies to the line `a`; on the line of the first the second does not
match. -/
theorem apply_replaceFirst : ∀ autoDrop : Bool,
    applyHashlineEdits Xxh32.xxh32 (normalizeToLF (js "a\n")) (replaceFirstParsed (js "X")).edits
        ⟨autoDrop⟩ = .ok ⟨js "X\n", some 1, []⟩ ∧
      applyHashlineEdits Xxh32.xxh32 (normalizeToLF (js "a\n"))
        (replaceFirstParsed (js "Y")).edits ⟨autoDrop⟩ = .ok ⟨js "Y\n", some 1, []⟩ ∧
      isMismatch (applyHashlineEdits Xxh32.xxh32 (normalizeToLF (js "X\n"))
        (replaceFirstParsed (js "Y")).edits ⟨autoDrop⟩) = true := by
  decide +kernel

/-- Nor does the snapshot that the first write recorded help. -/
theorem recover_replaceFirst_stale (host : EditHost) (hs : PlainSession host) :
    recoverFromSnapshot host.xxHash32 host.diffPackage
      (LineMap.empty.setAll ((lines (js "X\n")).mapIdx (fun idx line => (1 + idx, line))))
      (normalizeToLF (js "X\n")) (replaceFirstParsed (js "Y")).edits host.applyOptions =
        .ok none := by
  rw [hs.xxHash32]
  have hvouch : anchorsVouchedFor Xxh32.xxh32
      (LineMap.empty.setAll ((lines (js "X\n")).mapIdx (fun idx line => (1 + idx, line))))
      (collectEditAnchors (replaceFirstParsed (js "Y")).edits) = false := by decide +kernel
  rw [recoverFromSnapshot]
  simp [hvouch]

theorem plain_contents : ∀ content ∈ [js "a\n", js "X\n"],
    content.all (· < 0x0080) = true ∧ content.length ≤ maxEditFileBytes ∧
      stripBom content = ([], content) := by
  decide

theorem peek_recordContiguous_empty (a b : JsString) :
    (FileReadCache.recordContiguous LruCache.empty a 1 (lines (js "X\n"))).peek b =
      if b = a then some (LineMap.empty.setAll
        ((lines (js "X\n")).mapIdx (fun idx line => (1 + idx, line)))) else none := by
  have hlines : ¬ (lines (js "X\n")).length = 0 := by decide
  have hnone : (LruCache.empty : FileReadCache).peek a = none := rfl
  rw [FileReadCache.recordContiguous, if_neg hlines, FileReadCache.record, hnone]
  exact LruCache.peek_set_empty (by decide) a b _

theorem applySection_stale (hs : PlainSession host) : ∃ err,
    (applySection host (replacedState host a).cache (loadedLine b (js "Y") (js "X\n"))).1 =
      .error err := by
  obtain ⟨mismatches, fileLines, happly⟩ := eq_mismatch (apply_replaceFirst _).2.2
  refine ⟨.mismatch mismatches fileLines, ?_⟩
  unfold applySection applyHashlineEditsWithRecovery
  simp only [loadedLine, LoadedSection.normalized]
  rw [hs.xxHash32, happly]
  simp only [tryRecoverHashlineWithCache, replacedState, peek_recordContiguous_empty]
  by_cases hb : b = a
  · have hrecover := recover_replaceFirst_stale host hs
    rw [hs.xxHash32] at hrecover
    simp only [if_pos hb, hrecover]
  · simp only [if_neg hb]

/-- Two sections for one file: the first is written, the second throws. -/
theorem runSections_two_names (hs : PlainSession host) (hp : PlainFile host p a)
    (hq : PlainFile host q b) (hplace : host.place a = host.place b) :
    ∃ err st', runSections host [replaceFirst p (js "X"), replaceFirst q (js "Y")]
      (oneLineState host a) = (.error err, st') ∧
        st'.files (host.place a) = some (.file (host.writethrough a (js "X\n"))) := by
  have hfile : (oneLineState host a).files (host.place a) =
      some (.file (host.writethrough a (js "a\n"))) := if_pos rfl
  have hold := plain_contents (js "a\n") mem_cons_self
  have hnew := plain_contents (js "X\n") (mem_cons_of_mem _ mem_cons_self)
  have hload₁ : loadSection host (replaceFirst p (js "X")) (oneLineState host a).files =
      .ok (loadedLine a (js "X") (js "a\n")) :=
    loadSection_replaceFirst hs hp parse_replaceFirst.1 hold.1 hold.2.1 hold.2.2 hfile
  have hload₂ : loadSection host (replaceFirst q (js "Y")) (oneLineState host a).files =
      .ok (loadedLine b (js "Y") (js "a\n")) :=
    loadSection_replaceFirst hs hq parse_replaceFirst.2 hold.1 hold.2.1 hold.2.2 (hplace ▸ hfile)
  have happly₁ := applySection_loadedLine (a := a) hs
    fun options => (apply_replaceFirst options.1).1
  have happly₂ := applySection_loadedLine (a := b) hs
    fun options => (apply_replaceFirst options.1).2.1
  obtain ⟨hne₁, hne₂⟩ : normalizeToLF (js "a\n") ≠ js "X\n" ∧
      normalizeToLF (js "a\n") ≠ js "Y\n" := by decide
  have hpre : preflightSections host [replaceFirst p (js "X"), replaceFirst q (js "Y")]
      (oneLineState host a) = (.ok (), oneLineState host a) := by
    simp only [preflightSections, preflightHashlineSection_eq_ok hload₁ (happly₁ _) hne₁,
      preflightHashlineSection_eq_ok hload₂ (happly₂ _) hne₂]
  -- the first section writes, and records what it wrote
  have hser : serializeEditFileText host a p (editedText (loadedLine a (js "X") (js "a\n"))
      ⟨js "X\n", some 1, []⟩) ((oneLineState host a).files (host.place a)) = .ok (js "X\n") := by
    have hending : restoreLineEndings (js "X\n") (detectLineEnding (js "a\n")) = js "X\n" := by
      decide
    rw [serializeEditFileText, hp.notNotebook]
    exact congrArg Except.ok hending
  have hexec : executeHashlineSection host (replaceFirst p (js "X")) (oneLineState host a) =
      (.ok (sectionResult host (replaceFirst p (js "X")) (loadedLine a (js "X") (js "a\n"))
        ⟨js "X\n", some 1, []⟩), replacedState host a) := by
    exact executeHashlineSection_eq_ok hload₁ (happly₁ _) hne₁ hser
  -- the second one reads what was written
  have hload₃ : loadSection host (replaceFirst q (js "Y")) (replacedState host a).files =
      .ok (loadedLine b (js "Y") (js "X\n")) := by
    apply loadSection_replaceFirst hs hq parse_replaceFirst.2 hnew.1 hnew.2.1 hnew.2.2
    rw [← hplace]
    exact Function.update_self ..
  obtain ⟨err, hstale⟩ := applySection_stale (a := a) (b := b) hs
  cases happly₃ : applySection host (replacedState host a).cache
      (loadedLine b (js "Y") (js "X\n")) with
  | mk result cache =>
    rw [happly₃] at hstale
    obtain rfl : result = .error err := hstale
    refine ⟨err, { replacedState host a with cache }, ?_, Function.update_self ..⟩
    simp only [runSections, hpre, executeSections, hexec,
      executeHashlineSection_eq_error hload₃ happly₃]

theorem independent_of_places (hp : PlainFile host p a) (hq : PlainFile host q b)
    (hplace : host.place a ≠ host.place b) (st : EditState) (diff diff' : JsString) :
    Independent host st [⟨p, diff⟩, ⟨q, diff'⟩] where
  places := by
    refine pairwise_pair.mpr ?_
    intro a' b' ha' hb'
    obtain rfl : a = a' := Except.ok.inj (hp.resolved.symm.trans ha')
    obtain rfl : b = b' := Except.ok.inj (hq.resolved.symm.trans hb')
    exact hplace
  cached := by simp [maxPathsPerSession]
  writable := by
    intro s hmem l r hload _
    obtain rfl := mem_singleton.mp hmem
    have hpath := hq.resolved.symm.trans (resolvePlanPath_of_loadSection hload)
    obtain rfl : b = l.absolutePath := Except.ok.inj hpath
    exact ⟨_, if_neg (by simp [hq.notNotebook])⟩

/-- An input with these two sections, as far as every state goes. -/
theorem allOrNothing_iff_places {input : JsString} {path : Option JsString}
    (hs : PlainSession host) (hp : PlainFile host p a) (hq : PlainFile host q b)
    (hin : inputSections host input path = .ok [replaceFirst p (js "X"), replaceFirst q (js "Y")]) :
    (∀ st, AllOrNothing host input path st) ↔ host.place a ≠ host.place b := by
  refine ⟨?_, ?_⟩
  · intro hall hplace
    obtain ⟨err, st', hrun, hfile⟩ := runSections_two_names hs hp hq hplace
    have hsame := hall (oneLineState host a) err st' (by rw [executeHashlineSingle, hin]; exact hrun)
    rw [hsame] at hfile
    -- the file held `a`, and what is written is read back
    have hbytes : host.writethrough a (js "a\n") = host.writethrough a (js "X\n") := by
      simpa [oneLineState] using hfile
    have htext := congrArg host.decode hbytes
    have hold := plain_contents (js "a\n") mem_cons_self
    have hnew := plain_contents (js "X\n") (mem_cons_of_mem _ mem_cons_self)
    rw [hs.decode_writethrough a _ hold.1, hs.decode_writethrough a _ hnew.1] at htext
    exact absurd htext (by decide)
  · intro hplace st
    apply allOrNothing_of_independent
    intro sections hsections
    rw [hin] at hsections
    cases hsections
    exact .inl (independent_of_places hp hq hplace st _ _)

end Names

/-- A session in the directory `/w` of a file system without links, with ASCII
files, no plan mode and no formatter. -/
def plainHost : EditHost where
  cwd := js "/w"
  resolvePlanPath := fun path =>
    .ok (if isAbsolutePath path then path else pathResolve (js "/w") path)
  enforcePlanModeWrite := fun _ => .ok ()
  assertEditableFileContent := fun _ _ => .ok ()
  place := id
  decode := fun bytes => bytes.map UInt8.toUInt16
  readEditableNotebookText := fun bytes _ => .ok (bytes.map UInt8.toUInt16)
  serializeEditedNotebookText := fun _ _ text => .ok text
  writethrough := fun _ content => content.map UInt16.toUInt8
  applyOptions := ⟨false⟩
  xxHash32 := Xxh32.xxh32
  diffPackage :=
    { diffLines := fun old new =>
        [⟨false, true, old, notBoth_false_left true⟩, ⟨true, false, new, notBoth_false_right true⟩]
      replayPatch := fun _ _ _ => none }

theorem plainSession_plainHost : PlainSession plainHost where
  editable := fun _ _ => rfl
  decode_writethrough := by
    intro _ content hascii
    refine (map_map ..).trans ((map_congr_left ?_).trans (map_id content))
    intro u hu
    have hlt : u.toNat < 128 := 
      UInt16.lt_iff_toNat_lt.mp (by simpa using all_eq_true.mp hascii u hu)
    rw [Function.comp, UInt16.toUInt16_toUInt8, id, ← UInt16.toNat_inj, UInt16.toNat_mod]
    exact Nat.mod_eq_of_lt (Nat.lt_trans hlt (by decide))
  length_writethrough := fun _ content _ => length_map ..
  xxHash32 := rfl

/-- Two sections that replace the first line of `a.ts`, under two names. -/
def twoNamesInput : JsString := js "§a.ts\n≔1hs\nX\n§./a.ts\n≔1hs\nY"

/-- Two sections that replace the first lines of two files. -/
def twoFilesInput : JsString := js "§a.ts\n≔1hs\nX\n§b.ts\n≔1hs\nY"

theorem not_all_or_nothing {input : JsString} {path : Option JsString} {st : EditState}
    (herr : (executeHashlineSingle host input path st).1.toOption.isNone = true) (place : JsString)
    (hfile : (executeHashlineSingle host input path st).2.files place ≠ st.files place) :
    ¬ AllOrNothing host input path st := by
  intro hclaim
  cases hrun : executeHashlineSingle host input path st with
  | mk result st' =>
    rw [hrun] at herr hfile
    cases result with
    | ok r => cases herr
    | error err => exact hfile (congrFun (hclaim err st' hrun) place)

end Atomic
end GajaeCode
